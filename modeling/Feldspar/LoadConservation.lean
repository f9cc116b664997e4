/-
Feldspar/LoadConservation.lean

Load conservation in a solved frame payload.

The equilibrium of the frame gives the sum of the vertical reactions: the point
loads, and for each member the vertical part of its fixed-end forces
(`sum_reactions`).  A distributed load becomes shears across the member, so its
vertical part is the whole load on a horizontal member and nothing on a
vertical one.  And a load entry is left out of the system exactly if it is of
another kind than `distributed` and `point` (`load_conservation_iff`).
-/
import Feldspar.FramePayload
import Feldspar.FrameEquilibrium
import Mathlib.Data.Rat.Sqrt
import Mathlib.Data.List.Dedup

set_option linter.unusedSectionVars false

namespace Feldspar

namespace Struct

open Frame

variable {K : Type} [Field K] [LinearOrder K]

/-- An exact square root, where there is one. -/
structure ExactSqrt (K : Type) [Field K] [LinearOrder K] where
  sqrt : K → K
  sqrt_mul_self : ∀ x, sqrt (x * x) = |x|

/-! ### What a load case declares -/

/-- The length of a member, with its sign in the payload. -/
def lengthSi (m : FrameMember K) : K := (toSi m.length.lo m.length.unit).getD 0

/-- The magnitude of a load. -/
def loadSi (load : FrameLoad K) : K := (toSi load.value.hi load.value.unit).getD 0

/-- The load entries of the case, those of the transfers included. -/
def caseLoads (py : PyStr K) (payload : FramePayload K) (loadCase : String)
    (transfers : List (Transfer K))
    (sourceIntensities : String → String → Option (ScalarInterval K)) : List (FrameLoad K) :=
  let derived := (derivedLoads py payload.members loadCase transfers sourceIntensities).toOption
  (payload.loads ++ (derived.map Prod.fst).getD []).filter fun load => load.case = loadCase

/-- A distributed load, over the length of its member. -/
def lineLoad (members : List (FrameMember K)) (load : FrameLoad K) : K :=
  ((members.filter fun m => load.target = m.id).map fun m => loadSi load * |lengthSi m|).sum

/-- The gravity load of the entries. -/
def declaredGravity (members : List (FrameMember K)) (loads : List (FrameLoad K)) : K :=
  (loads.map fun load =>
    if load.kind = "distributed" then lineLoad members load
    else if load.kind = "point" then loadSi load else 0).sum

/-- The part of it that is distributed over vertical members. -/
def verticalLineLoad (members : List (FrameMember K)) (loads : List (FrameLoad K)) : K :=
  ((loads.filter fun load => load.kind = "distributed").map
    (lineLoad (members.filter fun m => m.orientation = "vertical"))).sum

def verticalReactions (r : FrameResult K) : K :=
  (r.joints.dedup.map fun joint => ((r.reactions joint).map fun v => v 1).getD 0).sum

/-- The entry is a summand of the fixed-end forces of a member, or of the
nodal loads. -/
def TakenIn (payload : FramePayload K) (load : FrameLoad K) : Prop :=
  (load.kind = "distributed" ∧ load.target ∈ payload.members.map FrameMember.id) ∨
    (load.kind = "point" ∧ load.target ∈ payload.joints)

/-! ### Dicts -/

section Dict

variable {α : Type}

theorem dict_isSome {l : List (String × α)} {k : String} :
    (dict l k).isSome ↔ k ∈ l.map Prod.fst := by
  induction l with
  | nil => simp [dict]
  | cons p l ih =>
      rw [dict, Option.isSome_or, Bool.or_eq_true, ih, List.map_cons, List.mem_cons, or_comm]
      by_cases h : p.1 = k
      · simp [h]
      · simp [h, Ne.symm h]

/-- The last entry of a key. -/
theorem dict_zipIdx {l : List String} {n i : ℕ} {k : String} (h : dict (l.zipIdx n) k = some i) :
    ∃ before after, l = before ++ k :: after ∧ i = n + before.length ∧ k ∉ after := by
  induction l generalizing n i with
  | nil => cases h
  | cons a l ih =>
      rw [List.zipIdx_cons, dict] at h
      rcases hlater : dict (l.zipIdx (n + 1)) k with _ | j
      · rw [hlater, Option.none_or] at h
        split_ifs at h with ha
        refine ⟨[], l, by rw [ha]; rfl, (Option.some.inj h).symm, fun hmem => ?_⟩
        have hsome := dict_isSome.mpr (show k ∈ (l.zipIdx (n + 1)).map Prod.fst by
          rwa [List.zipIdx_map_fst])
        rw [hlater] at hsome
        cases hsome
      · rw [hlater, Option.some_or] at h
        obtain ⟨before, after, rfl, hj, hk⟩ := ih hlater
        refine ⟨a :: before, after, rfl, ?_, hk⟩
        rw [← Option.some.inj h, hj, List.length_cons]
        omega

/-- The values of a dict add up to those of its entries, if the entries that
are replaced add nothing. -/
theorem sum_dict {l : List (String × α)} {g : α → K}
    (hreplaced : ∀ before k v after, l = before ++ (k, v) :: after → k ∈ after.map Prod.fst → g v = 0) :
    ((l.map Prod.fst).dedup.map fun k => ((dict l k).map g).getD 0).sum
      = (l.map fun p => g p.2).sum := by
  induction l with
  | nil => rfl
  | cons p l ih =>
      obtain ⟨k, v⟩ := p
      have hrest := ih fun before k' v' after hsplit => hreplaced ((k, v) :: before) k' v' after
        (by rw [hsplit]; rfl)
      -- the later keys have their later values
      have hlater : ((l.map Prod.fst).dedup.map fun k' => ((dict ((k, v) :: l) k').map g).getD 0)
          = (l.map Prod.fst).dedup.map fun k' => ((dict l k').map g).getD 0 := by
        refine List.map_congr_left fun k' hk' => ?_
        obtain ⟨v', hv'⟩ := Option.isSome_iff_exists.mp (dict_isSome.mpr (List.mem_dedup.mp hk'))
        rw [dict, hv', Option.some_or]
      rw [List.map_cons, List.map_cons, List.sum_cons]
      by_cases hk : k ∈ l.map Prod.fst
      · rw [List.dedup_cons_of_mem hk, hlater, hrest, hreplaced [] k v l rfl hk, zero_add]
      · have hnone : dict l k = none := by
          rw [← Option.not_isSome_iff_eq_none, dict_isSome]
          exact hk
        rw [List.dedup_cons_of_notMem hk, List.map_cons, List.sum_cons, hlater, hrest, dict, hnone]
        simp

end Dict

/-! ### The loops of the translation -/

section Loops

variable {py : PyStr K} {loadCase : String}

theorem scalarToSi_ok {interval : ScalarInterval K} {corner : ScalarInterval K → K}
    {context : String} {x : K} (h : scalarToSi py interval corner context = .ok x) :
    toSi (corner interval) interval.unit = some x := by
  unfold scalarToSi at h
  rcases hx : toSi (corner interval) interval.unit with _ | x'
  · rw [hx] at h
    cases h
  · rw [hx] at h
    exact congrArg _ (Except.ok.inj h)

theorem lengthToSiM_ok {m : FrameMember K} {context : String} {x : K}
    (h : lengthToSiM py m.length context = .ok x) : lengthSi m = x := by
  unfold lengthToSiM at h
  split_ifs at h
  rw [lengthSi, scalarToSi_ok h]
  rfl

theorem loadSi_of_ok {load : FrameLoad K} {context : String} {w : K}
    (h : scalarToSi py load.value ScalarInterval.hi context = .ok w) : loadSi load = w := by
  rw [loadSi, scalarToSi_ok h]
  rfl

/-- The entries of the case at a member. -/
def atMember (loadCase : String) (m : FrameMember K) (load : FrameLoad K) : Bool :=
  load.case = loadCase ∧ load.target = m.id

/-- The fixed-end forces of the entries gone through. -/
structure MemberLoads (loadCase : String) (m : FrameMember K) (lengthM : K)
    (loads : List (FrameLoad K)) (fef : Fin 6 → K) : Prop where
  total : ∀ dof, fef dof = ((loads.filter (atMember loadCase m)).map
    fun load => udlFefLocal (loadSi load) lengthM dof).sum
  kinds : ∀ load ∈ loads.filter (atMember loadCase m), load.kind = "distributed"

theorem addMemberLoad_ok {m : FrameMember K} {lengthM : K} {loads : List (FrameLoad K)}
    {acc acc' : (Fin 6 → K) × Assumptions} {load : FrameLoad K}
    (hacc : MemberLoads loadCase m lengthM loads acc.1)
    (h : addMemberLoad py loadCase m lengthM acc load = .ok acc') :
    MemberLoads loadCase m lengthM (loads ++ [load]) acc'.1 := by
  unfold addMemberLoad at h
  split_ifs at h with hother hdirection hkind
  · have hnot : ¬ atMember loadCase m load := by
      intro hat
      obtain ⟨hcase, htarget⟩ := of_decide_eq_true hat
      exact hother.elim (fun hne => hne hcase) fun hne => hne htarget
    have hfilter : (loads ++ [load]).filter (atMember loadCase m)
        = loads.filter (atMember loadCase m) := by
      rw [List.filter_append, List.filter_cons_of_neg hnot, List.filter_nil, List.append_nil]
    obtain rfl := Except.ok.inj h
    exact ⟨fun dof => by rw [hfilter, hacc.total], by rw [hfilter]; exact hacc.kinds⟩
  · obtain ⟨w, hw, h⟩ := Fallible.bind_eq_ok.mp h
    obtain rfl := Except.ok.inj h
    have hat : atMember loadCase m load := by
      simpa [atMember, not_or] using hother
    have hfilter : (loads ++ [load]).filter (atMember loadCase m)
        = loads.filter (atMember loadCase m) ++ [load] := by
      rw [List.filter_append, List.filter_cons_of_pos hat, List.filter_nil]
    refine ⟨fun dof => ?_, ?_⟩
    · show acc.1 dof + udlFefLocal w lengthM dof = _
      rw [hfilter, List.map_append, List.sum_append, hacc.total, List.map_singleton,
        List.sum_singleton, loadSi_of_ok hw]
    · intro load' hload'
      rw [hfilter] at hload'
      rcases List.mem_append.mp hload' with hmem | hmem
      · exact hacc.kinds load' hmem
      · rw [List.mem_singleton.mp hmem]
        exact not_not.mp hkind

theorem MemberLoads.axialA {m : FrameMember K} {lengthM : K} {loads : List (FrameLoad K)}
    {fef : Fin 6 → K} (h : MemberLoads loadCase m lengthM loads fef) : fef 0 = 0 := by
  rw [h.total]
  exact List.sum_map_zero

theorem MemberLoads.axialB {m : FrameMember K} {lengthM : K} {loads : List (FrameLoad K)}
    {fef : Fin 6 → K} (h : MemberLoads loadCase m lengthM loads fef) : fef 3 = 0 := by
  rw [h.total]
  exact List.sum_map_zero

/-- The two shears of a line load carry all of it. -/
theorem udlFefLocal_shear [IsStrictOrderedRing K] (w lengthM : K) :
    udlFefLocal w lengthM 1 + udlFefLocal w lengthM 4 = w * lengthM := by
  show w * lengthM / 2.0 + w * lengthM / 2.0 = w * lengthM
  have h2 : (2.0 : K) = 2 := by norm_num
  rw [h2, add_halves]

theorem MemberLoads.shear [IsStrictOrderedRing K] {m : FrameMember K} {lengthM : K}
    {loads : List (FrameLoad K)} {fef : Fin 6 → K}
    (h : MemberLoads loadCase m lengthM loads fef) :
    fef 1 + fef 4
      = ((loads.filter (atMember loadCase m)).map fun load => loadSi load * lengthM).sum := by
  rw [h.total, h.total, ← List.sum_map_add]
  simp only [udlFefLocal_shear]

/-- What a member of the payload becomes. -/
structure Translated (loadCase : String) (loads : List (FrameLoad K)) (m : FrameMember K)
    (input : FrameMemberInput K) : Prop where
  orientation : (m.orientation = "horizontal" ∧ input.dx = lengthSi m ∧ input.dy = 0) ∨
    (m.orientation = "vertical" ∧ input.dx = 0 ∧ input.dy = lengthSi m)
  fef : MemberLoads loadCase m (lengthSi m) loads input.fefLocal

theorem memberGeometry_ok {orientation memberId : String} {lengthM : K} {d : K × K}
    (h : memberGeometry py orientation lengthM memberId = .ok d) :
    (orientation = "horizontal" ∧ d.1 = lengthM ∧ d.2 = 0) ∨
      (orientation = "vertical" ∧ d.1 = 0 ∧ d.2 = lengthM) := by
  unfold memberGeometry at h
  split at h
  · obtain rfl := Except.ok.inj h
    exact Or.inl ⟨rfl, one_mul _, zero_mul _⟩
  · obtain rfl := Except.ok.inj h
    exact Or.inr ⟨rfl, zero_mul _, one_mul _⟩
  · cases h

theorem translateMember_ok {joints : List String}
    {sectionMaterial : String → Option (SectionMaterial K)} {loads : List (FrameLoad K)}
    {acc acc' : List (FrameMemberInput K) × Assumptions} {m : FrameMember K}
    (h : translateMember py joints sectionMaterial loadCase loads acc m = .ok acc') :
    ∃ input, acc'.1 = acc.1 ++ [input] ∧ Translated loadCase loads m input := by
  unfold translateMember at h
  rcases hprops : sectionMaterial m.id with _ | props
  · rw [hprops] at h
    cases h
  · rw [hprops] at h
    obtain ⟨lengthM, hlength, h⟩ := Fallible.bind_eq_ok.mp h
    obtain ⟨d, hd, h⟩ := Fallible.bind_eq_ok.mp h
    obtain ⟨relA, -, h⟩ := Fallible.bind_eq_ok.mp h
    obtain ⟨relB, -, h⟩ := Fallible.bind_eq_ok.mp h
    obtain ⟨fef, hfef, h⟩ := Fallible.bind_eq_ok.mp h
    obtain ⟨i, -, h⟩ := Fallible.bind_eq_ok.mp h
    obtain ⟨j, -, h⟩ := Fallible.bind_eq_ok.mp h
    obtain rfl := Except.ok.inj h
    obtain rfl := lengthToSiM_ok hlength
    refine ⟨_, rfl, memberGeometry_ok hd, ?_⟩
    refine Fallible.foldlM_invariant
      (I := fun done acc => MemberLoads loadCase m (lengthSi m) done acc.1)
      (fun done load acc acc' hacc hstep => addMemberLoad_ok hacc hstep) ?_ hfef
    exact ⟨fun _ => rfl, fun _ hmem => by cases hmem⟩

theorem translateMembers_ok {joints : List String}
    {sectionMaterial : String → Option (SectionMaterial K)} {loads : List (FrameLoad K)}
    {members : List (FrameMember K)} {start acc : Assumptions}
    {inputs : List (FrameMemberInput K)}
    (h : members.foldlM (translateMember py joints sectionMaterial loadCase loads) ([], start)
      = .ok (inputs, acc)) : List.Forall₂ (Translated loadCase loads) members inputs := by
  refine Fallible.foldlM_invariant
    (I := fun done acc => List.Forall₂ (Translated loadCase loads) done acc.1)
    (fun done m acc acc' hacc hstep => ?_) .nil h
  obtain ⟨input, hinput, hm⟩ := translateMember_ok hstep
  rw [hinput]
  exact List.rel_append hacc (.cons hm .nil)

/-- Every fixed degree of freedom is at the node of a joint. -/
def FixedAtJoints (joints : List String) (fixed : List Bool) : Prop :=
  ∀ dof, isFixed fixed dof = true →
    ∃ joint node, ∃ l < 3, jointIndex joints joint = some node ∧ dof = node * 3 + l

theorem isFixed_set {fixed : List Bool} {i dof : ℕ} {b : Bool}
    (h : isFixed (fixed.set i b) dof = true) : dof = i ∨ isFixed fixed dof = true := by
  by_cases heq : dof = i
  · exact Or.inl heq
  · right
    rwa [isFixed, List.getElem?_set_ne (Ne.symm heq)] at h

theorem supportFixedDofs_length {fixity : List String} {joint : String} {codes : List Bool}
    (h : supportFixedDofs py fixity joint = .ok codes) : codes.length = 3 := by
  unfold supportFixedDofs at h
  split_ifs at h
  split at h
  · cases h
  · obtain rfl := Except.ok.inj h
    rfl

theorem translateSupport_ok {joints : List String} {fixed fixed' : List Bool} {s : Support}
    (hfixed : FixedAtJoints joints fixed) (h : translateSupport py joints fixed s = .ok fixed') :
    FixedAtJoints joints fixed' := by
  unfold translateSupport at h
  rcases hnode : jointIndex joints s.joint with _ | node
  · rw [hnode] at h
    cases h
  · rw [hnode] at h
    obtain ⟨codes, hcodes, h⟩ := Fallible.bind_eq_ok.mp h
    obtain rfl := Except.ok.inj h
    have hsets : ∀ (l : List (Bool × ℕ)) (fixed : List Bool), (∀ code ∈ l, code.2 < 3) →
        FixedAtJoints joints fixed →
        FixedAtJoints joints (l.foldl (fun fixed code => fixed.set (node * 3 + code.2) code.1) fixed) := by
      intro l
      induction l with
      | nil => exact fun _ _ h => h
      | cons code l ih =>
          intro fixed hl hfixed
          refine ih _ (fun c hc => hl c (List.mem_cons_of_mem _ hc)) fun dof hdof => ?_
          rcases isFixed_set hdof with rfl | hdof
          · exact ⟨s.joint, node, code.2, hl code List.mem_cons_self, hnode, rfl⟩
          · exact hfixed dof hdof
    refine hsets _ _ (fun code hcode => ?_) hfixed
    have hlt := (List.getElem?_eq_some_iff.mp (List.mem_zipIdx_iff_getElem?.mp hcode)).1
    rwa [supportFixedDofs_length hcodes] at hlt

theorem translateSupports_ok {joints : List String} {supports : List Support} {n : ℕ}
    {fixed : List Bool}
    (h : supports.foldlM (translateSupport py joints) (List.replicate n false) = .ok fixed) :
    FixedAtJoints joints fixed := by
  refine Fallible.foldlM_invariant (I := fun _ fixed => FixedAtJoints joints fixed)
    (fun _ _ _ _ hfixed hstep => translateSupport_ok hfixed hstep) (fun dof hdof => ?_) h
  rw [isFixed, List.getElem?_replicate] at hdof
  split_ifs at hdof <;> cases hdof

theorem jointIndex_lt {joints : List String} {joint : String} {node : ℕ}
    (h : jointIndex joints joint = some node) : node < joints.length := by
  obtain ⟨before, after, rfl, rfl, -⟩ := dict_zipIdx h
  simp

theorem jointIndex_mem {joints : List String} {joint : String} {node : ℕ}
    (h : jointIndex joints joint = some node) : joint ∈ joints := by
  obtain ⟨before, after, rfl, -⟩ := dict_zipIdx h
  simp

/-- The point loads of the case. -/
def isPoint (loadCase : String) (load : FrameLoad K) : Bool :=
  load.case = loadCase ∧ load.kind = "point"

/-- The nodal loads of the entries gone through. -/
structure JointLoads (joints : List String) (loadCase : String) (done : List (FrameLoad K))
    (loads : List K) : Prop where
  length : loads.length = joints.length * 3
  total : ∑ node ∈ Finset.range joints.length, loadAt loads (node * 3 + 1)
    = -((done.filter (isPoint loadCase)).map loadSi).sum
  targets : ∀ load ∈ done.filter (isPoint loadCase), load.target ∈ joints

theorem sum_modify {n node : ℕ} {loads : List K} (hlength : loads.length = n * 3) (hnode : node < n)
    (w : K) :
    ∑ node' ∈ Finset.range n, loadAt (loads.modify (node * 3 + 1) fun x => x - w) (node' * 3 + 1)
      = ∑ node' ∈ Finset.range n, loadAt loads (node' * 3 + 1) - w := by
  have hentry : ∀ node' ∈ Finset.range n,
      loadAt (loads.modify (node * 3 + 1) fun x => x - w) (node' * 3 + 1)
        = loadAt loads (node' * 3 + 1) - if node = node' then w else 0 := by
    intro node' hnode'
    have hlt : node' * 3 + 1 < loads.length := by
      have := Finset.mem_range.mp hnode'
      omega
    rw [loadAt, loadAt, List.getElem?_modify, List.getElem?_eq_getElem hlt]
    by_cases heq : node = node'
    · simp [heq]
    · have hne : ¬ node * 3 + 1 = node' * 3 + 1 := by omega
      simp [heq]
  rw [Finset.sum_congr rfl hentry, Finset.sum_sub_distrib, Finset.sum_ite_eq,
    if_pos (Finset.mem_range.mpr hnode)]

theorem addJointLoad_ok {joints : List String} {done : List (FrameLoad K)}
    {acc acc' : List K × Assumptions} {load : FrameLoad K}
    (hacc : JointLoads joints loadCase done acc.1)
    (h : addJointLoad py joints loadCase acc load = .ok acc') :
    JointLoads joints loadCase (done ++ [load]) acc'.1 := by
  unfold addJointLoad at h
  by_cases hother : load.case ≠ loadCase ∨ load.kind ≠ "point"
  · rw [if_pos hother] at h
    have hnot : ¬ isPoint loadCase load := by
      intro hpoint
      obtain ⟨hcase, hkind⟩ := of_decide_eq_true hpoint
      exact hother.elim (fun hne => hne hcase) fun hne => hne hkind
    have hfilter : (done ++ [load]).filter (isPoint loadCase) = done.filter (isPoint loadCase) := by
      rw [List.filter_append, List.filter_cons_of_neg hnot, List.filter_nil, List.append_nil]
    obtain rfl := Except.ok.inj h
    exact ⟨hacc.length, by rw [hfilter, hacc.total], by rw [hfilter]; exact hacc.targets⟩
  · rw [if_neg hother] at h
    have hpoint : isPoint loadCase load := by
      simpa [isPoint, not_or] using hother
    have hfilter : (done ++ [load]).filter (isPoint loadCase)
        = done.filter (isPoint loadCase) ++ [load] := by
      rw [List.filter_append, List.filter_cons_of_pos hpoint, List.filter_nil]
    rcases hnode : jointIndex joints load.target with _ | node
    · rw [hnode] at h
      cases h
    · simp only [hnode] at h
      split_ifs at h
      obtain ⟨w, hw, h⟩ := Fallible.bind_eq_ok.mp h
      obtain rfl := Except.ok.inj h
      refine ⟨?_, ?_, ?_⟩
      · rw [List.length_modify, hacc.length]
      · rw [sum_modify hacc.length (jointIndex_lt hnode), hacc.total, hfilter, List.map_append,
          List.sum_append, List.map_singleton, List.sum_singleton, loadSi_of_ok hw]
        ring
      · intro load' hload'
        rw [hfilter] at hload'
        rcases List.mem_append.mp hload' with hmem | hmem
        · exact hacc.targets load' hmem
        · rw [List.mem_singleton.mp hmem]
          exact jointIndex_mem hnode

theorem addJointLoads_ok {joints : List String} {loads : List (FrameLoad K)} {start : Assumptions}
    {acc : List K × Assumptions}
    (h : loads.foldlM (addJointLoad py joints loadCase) (List.replicate (joints.length * 3) 0, start)
      = .ok acc) : JointLoads joints loadCase loads acc.1 := by
  refine Fallible.foldlM_invariant (I := fun done acc => JointLoads joints loadCase done acc.1)
    (fun done load acc acc' hacc hstep => addJointLoad_ok hacc hstep) ⟨?_, ?_, ?_⟩ h
  · exact List.length_replicate
  · refine (Finset.sum_eq_zero fun node _ => ?_).trans (by simp)
    rw [loadAt, List.getElem?_replicate]
    split_ifs <;> rfl
  · exact fun _ hmem => by cases hmem

end Loops

/-! ### Reactions -/

section Reactions

variable [IsStrictOrderedRing K]

/-- The vertical end forces of a member are those of its fixed-end forces. -/
theorem sum_forceAt {sqrt : K → K} {n : ℕ} {m : FrameMemberInput K} {f : Fin 6 → K}
    (hi : m.i < n) (hj : m.j < n) (hm : MemberEquilibrium sqrt m f) :
    ∑ node : Fin n, m.forceAt sqrt f (node * dofPerNode + 1) = m.fefVertical sqrt := by
  have hx : ∀ a, ∑ li, transformRow li (m.c sqrt) (m.s sqrt) a * f li
      = transformRow 0 (m.c sqrt) (m.s sqrt) a * f 0 + transformRow 1 (m.c sqrt) (m.s sqrt) a * f 1
        + transformRow 2 (m.c sqrt) (m.s sqrt) a * f 2 + transformRow 3 (m.c sqrt) (m.s sqrt) a * f 3
        + transformRow 4 (m.c sqrt) (m.s sqrt) a * f 4 + transformRow 5 (m.c sqrt) (m.s sqrt) a * f 5 :=
    fun a => Fin.sum_univ_six _
  -- a vertical degree of freedom is the second or the fifth local one
  have hone : ∀ (x : K) (i : ℕ), i < n →
      ∑ node : Fin n, (if i * dofPerNode + 1 = node * dofPerNode + 1 then x else 0) = x := by
    intro x i hi
    rw [Finset.sum_eq_single ⟨i, hi⟩ (fun node _ hne => if_neg fun heq => hne (Fin.ext ?_))
      fun h => absurd (Finset.mem_univ _) h, if_pos rfl]
    show node = i
    unfold dofPerNode at heq
    omega
  have hnone : ∀ (x : K) (i l : ℕ), l = 0 ∨ l = 2 →
      ∑ node : Fin n, (if i * dofPerNode + l = node * dofPerNode + 1 then x else 0) = 0 := by
    intro x i l hl
    refine Finset.sum_eq_zero fun node _ => if_neg fun heq => ?_
    unfold dofPerNode at heq
    omega
  unfold FrameMemberInput.forceAt
  rw [Finset.sum_comm, Fin.sum_univ_six]
  have h0 := hnone (∑ li, transformRow li (m.c sqrt) (m.s sqrt) 0 * f li) m.i 0 (Or.inl rfl)
  have h1 := hone (∑ li, transformRow li (m.c sqrt) (m.s sqrt) 1 * f li) m.i hi
  have h2 := hnone (∑ li, transformRow li (m.c sqrt) (m.s sqrt) 2 * f li) m.i 2 (Or.inr rfl)
  have h3 := hnone (∑ li, transformRow li (m.c sqrt) (m.s sqrt) 3 * f li) m.j 0 (Or.inl rfl)
  have h4 := hone (∑ li, transformRow li (m.c sqrt) (m.s sqrt) 4 * f li) m.j hj
  have h5 := hnone (∑ li, transformRow li (m.c sqrt) (m.s sqrt) 5 * f li) m.j 2 (Or.inr rfl)
  refine (congrArg₂ (· + ·) (congrArg₂ (· + ·) (congrArg₂ (· + ·) (congrArg₂ (· + ·)
    (congrArg₂ (· + ·) h0 h1) h2) h3) h4) h5).trans ?_
  rw [hx, hx]
  show 0 + (m.s sqrt * f 0 + m.c sqrt * f 1 + 0 * f 2 + 0 * f 3 + 0 * f 4 + 0 * f 5) + 0 + 0
    + (0 * f 0 + 0 * f 1 + 0 * f 2 + m.s sqrt * f 3 + m.c sqrt * f 4 + 0 * f 5) + 0 = _
  unfold FrameMemberInput.fefVertical
  linear_combination m.s sqrt * hm.axial + m.c sqrt * hm.shear

/-- **The vertical reactions** of a solved frame. -/
theorem sum_reactions {sqrt : K → K} {n : ℕ} {members : List (FrameMemberInput K)}
    {fixed : List Bool} {loads : List K} {sol : FrameSolution K n}
    (h : frame2dSolve sqrt n members fixed loads = .ok sol) :
    ∑ node, sol.reactions node 1
      = (members.map (FrameMemberInput.fefVertical sqrt)).sum
        - ∑ node ∈ Finset.range n, loadAt loads (node * 3 + 1) := by
  have hequilibrium := frame2dSolve_equilibrium h
  obtain ⟨⟨⟩, hshape, -⟩ := Fallible.bind_eq_ok.mp h
  have hdofs := checkShape_ok hshape
  have hnodes : ∀ m ∈ members, m.i < n ∧ m.j < n := by
    intro m hm
    have h0 : m.i * dofPerNode < n * dofPerNode := hdofs m hm 0
    have h3 : m.j * dofPerNode < n * dofPerNode := hdofs m hm 3
    unfold dofPerNode at h0 h3
    omega
  have hforces : ∀ {members : List (FrameMemberInput K)} {forces : List (Fin 6 → K)},
      List.Forall₂ (MemberEquilibrium sqrt) members forces → (∀ m ∈ members, m.i < n ∧ m.j < n) →
      ∑ node : Fin n, ((members.zip forces).map fun m =>
        m.1.forceAt sqrt m.2 (node * dofPerNode + 1)).sum
          = (members.map (FrameMemberInput.fefVertical sqrt)).sum := by
    intro members forces hmembers
    induction hmembers with
    | nil => simp
    | @cons m f members forces hm _ ih =>
        intro hnodes
        obtain ⟨hi, hj⟩ := hnodes m List.mem_cons_self
        simp only [List.zip_cons_cons, List.map_cons, List.sum_cons, Finset.sum_add_distrib]
        rw [sum_forceAt hi hj hm, ih fun m' hm' => hnodes m' (List.mem_cons_of_mem _ hm')]
  rw [← hforces hequilibrium.members hnodes, Finset.sum_range, ← Finset.sum_sub_distrib]
  refine Finset.sum_congr rfl fun node _ => ?_
  have hnode := hequilibrium.nodes node 1
  exact (sub_eq_iff_eq_add'.mpr hnode).symm

/-- A horizontal member carries its loads to its ends, a vertical one carries
nothing vertical. -/
theorem fefVertical_translated (sq : ExactSqrt K) {loadCase : String} {loads : List (FrameLoad K)}
    {m : FrameMember K} {input : FrameMemberInput K} (h : Translated loadCase loads m input) :
    input.fefVertical sq.sqrt = if m.orientation = "horizontal" then
      ((loads.filter (atMember loadCase m)).map fun load => loadSi load * |lengthSi m|).sum else 0 := by
  rw [FrameMemberInput.fefVertical, h.fef.axialA, h.fef.axialB, h.fef.shear, add_zero, mul_zero, zero_add]
  rcases h.orientation with ⟨horientation, hdx, hdy⟩ | ⟨horientation, hdx, -⟩
  · have hlength : input.length sq.sqrt = |lengthSi m| := by
      rw [FrameMemberInput.length, hdx, hdy, mul_zero, add_zero, sq.sqrt_mul_self]
    have hc : lengthSi m / |lengthSi m| * lengthSi m = |lengthSi m| := by
      rcases eq_or_ne (lengthSi m) 0 with hzero | hne
      · rw [hzero, mul_zero, abs_zero]
      · rw [div_mul_eq_mul_div, div_eq_iff (abs_ne_zero.mpr hne), abs_mul_abs_self]
    rw [if_pos horientation, FrameMemberInput.c, hdx, hlength, ← List.sum_map_mul_left]
    refine congrArg List.sum (List.map_congr_left fun load _ => ?_)
    linear_combination loadSi load * hc
  · rw [if_neg (by rw [horientation]; decide), FrameMemberInput.c, hdx, zero_div, zero_mul]

theorem sum_fefVertical (sq : ExactSqrt K) {loadCase : String} {loads : List (FrameLoad K)}
    {members : List (FrameMember K)} {inputs : List (FrameMemberInput K)}
    (h : List.Forall₂ (Translated loadCase loads) members inputs) :
    (inputs.map (FrameMemberInput.fefVertical sq.sqrt)).sum = (members.map fun m =>
      if m.orientation = "horizontal" then
        ((loads.filter (atMember loadCase m)).map fun load => loadSi load * |lengthSi m|).sum
      else 0).sum := by
  induction h with
  | nil => rfl
  | cons hm _ ih =>
      rw [List.map_cons, List.map_cons, List.sum_cons, List.sum_cons, ih,
        fefVertical_translated sq hm]

theorem sum_filter {α : Type} (l : List α) (p : α → Bool) (f : α → K) :
    ((l.filter p).map f).sum = (l.map fun x => if p x then f x else 0).sum := by
  induction l with
  | nil => rfl
  | cons x l ih =>
      rw [List.map_cons, List.sum_cons, ← ih, List.filter_cons]
      split_ifs
      · rfl
      · rw [zero_add]

theorem sum_swap {α β : Type} (l : List α) (l' : List β) (f : α → β → K) :
    (l.map fun x => (l'.map fun y => f x y).sum).sum
      = (l'.map fun y => (l.map fun x => f x y).sum).sum := by
  induction l with
  | nil => simp
  | cons x l ih =>
      rw [List.map_cons, List.sum_cons, ih, ← List.sum_map_add]
      rfl

/-- The loads of the horizontal members, summed by member and by load. -/
theorem sum_horizontal {loadCase : String} {loads : List (FrameLoad K)}
    {members : List (FrameMember K)}
    (hkinds : ∀ m ∈ members, ∀ load ∈ loads.filter (atMember loadCase m), load.kind = "distributed") :
    (members.map fun m => if m.orientation = "horizontal" then
        ((loads.filter (atMember loadCase m)).map fun load => loadSi load * |lengthSi m|).sum else 0).sum
      = (((loads.filter fun load => load.case = loadCase).filter fun load =>
          load.kind = "distributed").map
            (lineLoad (members.filter fun m => m.orientation = "horizontal"))).sum := by
  let share : FrameMember K → FrameLoad K → K := fun m load =>
    if m.orientation = "horizontal" ∧ load.case = loadCase ∧ load.target = m.id then
      loadSi load * |lengthSi m| else 0
  have hmember : ∀ m ∈ members, (if m.orientation = "horizontal" then
      ((loads.filter (atMember loadCase m)).map fun load => loadSi load * |lengthSi m|).sum else 0)
        = (loads.map fun load => share m load).sum := by
    intro m _
    by_cases hm : m.orientation = "horizontal"
    · rw [if_pos hm, sum_filter]
      refine congrArg List.sum (List.map_congr_left fun load _ => ?_)
      simp only [share, atMember, hm, true_and, decide_eq_true_eq]
    · simp [share, hm]
  have hload : ∀ load ∈ loads, (members.map fun m => share m load).sum
      = if load.case = loadCase ∧ load.kind = "distributed" then
          lineLoad (members.filter fun m => m.orientation = "horizontal") load else 0 := by
    intro load hmem
    by_cases hdistributed : load.case = loadCase ∧ load.kind = "distributed"
    · rw [if_pos hdistributed, lineLoad, List.filter_filter, sum_filter]
      refine congrArg List.sum (List.map_congr_left fun m _ => ?_)
      simp only [share, hdistributed.1, true_and, Bool.and_eq_true, decide_eq_true_eq, and_comm]
    · -- an entry of another kind would have been refused at its member
      rw [if_neg hdistributed]
      refine List.sum_eq_zero fun x hx => ?_
      obtain ⟨m, hm, rfl⟩ := List.mem_map.mp hx
      refine if_neg fun hshare => hdistributed ⟨hshare.2.1, hkinds m hm load ?_⟩
      exact List.mem_filter.mpr ⟨hmem, decide_eq_true hshare.2⟩
  rw [List.map_congr_left hmember, sum_swap, List.map_congr_left hload, List.filter_filter,
    sum_filter]
  refine congrArg List.sum (List.map_congr_left fun load _ => ?_)
  simp only [Bool.and_eq_true, decide_eq_true_eq, and_comm]

/-- A member of a solved payload is horizontal or vertical. -/
theorem lineLoad_split {members : List (FrameMember K)}
    (horientation : ∀ m ∈ members, m.orientation = "horizontal" ∨ m.orientation = "vertical")
    (load : FrameLoad K) :
    lineLoad members load
      = lineLoad (members.filter fun m => m.orientation = "horizontal") load
        + lineLoad (members.filter fun m => m.orientation = "vertical") load := by
  unfold lineLoad
  rw [List.filter_filter, List.filter_filter, sum_filter, sum_filter, sum_filter, ← List.sum_map_add]
  refine congrArg List.sum (List.map_congr_left fun m hm => ?_)
  rcases horientation m hm with horient | horient <;> simp [horient]

/-- The declared load, by what becomes of it. -/
theorem declaredGravity_split {members : List (FrameMember K)} {loads : List (FrameLoad K)}
    (horientation : ∀ m ∈ members, m.orientation = "horizontal" ∨ m.orientation = "vertical") :
    declaredGravity members loads
      = ((loads.filter fun load => load.kind = "distributed").map
          (lineLoad (members.filter fun m => m.orientation = "horizontal"))).sum
        + verticalLineLoad members loads
        + ((loads.filter fun load => load.kind = "point").map loadSi).sum := by
  rw [declaredGravity, verticalLineLoad, sum_filter, sum_filter, sum_filter, ← List.sum_map_add,
    ← List.sum_map_add]
  refine congrArg List.sum (List.map_congr_left fun load _ => ?_)
  by_cases hdistributed : load.kind = "distributed"
  · simp [hdistributed, lineLoad_split horientation load]
  · simp [hdistributed]

end Reactions

/-! ### Conservation -/

section Conservation

/-- A joint whose id is taken again later has no support. -/
theorem replaced_free {joints : List String} {fixed : List Bool}
    (hfixed : FixedAtJoints joints fixed) {before after : List String} {k : String}
    (hsplit : joints = before ++ k :: after) (hk : k ∈ after) :
    isFixed fixed (before.length * 3 + 1) = false := by
  by_contra hne
  obtain ⟨joint, node, l, hl, hnode, hdof⟩ := hfixed _ (by simpa using hne)
  obtain ⟨before', after', hsplit', hlast, hnot⟩ := dict_zipIdx hnode
  have hlength : before'.length = before.length := by omega
  rw [hsplit'] at hsplit
  obtain ⟨-, htail⟩ := List.append_inj hsplit hlength
  obtain ⟨rfl, rfl⟩ := List.cons.inj htail
  exact hnot hk

/-- The values of the `reactions` dict add up to the reactions of all nodes. -/
theorem sum_reactions_dict {joints : List String} {fixed : List Bool}
    (hfixed : FixedAtJoints joints fixed) {reactions : Fin joints.length → Fin 3 → K}
    (hfree : ∀ node : Fin joints.length,
      isFixed fixed (node * dofPerNode + 1) = false → reactions node 1 = 0) :
    (joints.dedup.map fun joint =>
        ((dict (joints.zip (List.ofFn reactions)) joint).map fun v => v 1).getD 0).sum
      = ∑ node, reactions node 1 := by
  have hkeys : (joints.zip (List.ofFn reactions)).map Prod.fst = joints :=
    List.map_fst_zip (by simp)
  have hvalues : (joints.zip (List.ofFn reactions)).map Prod.snd = List.ofFn reactions :=
    List.map_snd_zip (by simp)
  have hsum := sum_dict (l := joints.zip (List.ofFn reactions)) (g := fun v => v 1) ?_
  · rw [hkeys] at hsum
    rw [hsum, ← List.sum_ofFn]
    refine congrArg List.sum ?_
    rw [show (fun p : String × (Fin 3 → K) => p.2 1) = (fun v => v 1) ∘ Prod.snd from rfl,
      ← List.map_map, hvalues, List.map_ofFn]
    rfl
  · intro before k v after hsplit hk
    have hjoints : joints = before.map Prod.fst ++ k :: after.map Prod.fst := by
      rw [← hkeys, hsplit, List.map_append, List.map_cons]
    have hv : List.ofFn reactions = before.map Prod.snd ++ v :: after.map Prod.snd := by
      rw [← hvalues, hsplit, List.map_append, List.map_cons]
    have hat : (List.ofFn reactions)[before.length]? = some v := by
      rw [hv, List.getElem?_append_right (by simp)]
      simp
    obtain ⟨hlt, hget⟩ := List.getElem?_eq_some_iff.mp hat
    have hzero := replaced_free hfixed hjoints hk
    rw [List.length_map] at hzero
    rw [← hget, List.getElem_ofFn]
    exact hfree _ hzero

/-- The result reports the solution, by the ids of the payload. -/
structure FrameResult.Of (payload : FramePayload K) (sol : FrameSolution K payload.joints.length)
    (r : FrameResult K) : Prop where
  joints : r.joints = payload.joints
  displacements : r.displacements = dict (payload.joints.zip (List.ofFn sol.displacements))
  reactions : r.reactions = dict (payload.joints.zip (List.ofFn sol.reactions))
  memberEndForces : r.memberEndForces
    = dict ((payload.members.map FrameMember.id).zip sol.memberEndForcesLocal)

/-- What a solved payload was translated to. -/
theorem solveFramePayload_ok {py : PyStr K} {sqrt : K → K} {payload : FramePayload K}
    {sectionMaterial : String → Option (SectionMaterial K)} {loadCase : String}
    {transfers : List (Transfer K)}
    {sourceIntensities : String → String → Option (ScalarInterval K)} {r : FrameResult K}
    (h : solveFramePayload py sqrt payload sectionMaterial loadCase transfers sourceIntensities
      = .ok r) :
    ∃ (derived : List (FrameLoad K) × List (LoadPath K)) (inputs : List (FrameMemberInput K))
      (assumptions : Assumptions) (fixed : List Bool) (jointLoads : List K × Assumptions)
      (sol : FrameSolution K payload.joints.length),
      derivedLoads py payload.members loadCase transfers sourceIntensities = .ok derived ∧
      (∀ load ∈ payload.loads ++ derived.1,
        checkTarget py payload.members loadCase load = .ok ()) ∧
      List.Forall₂ (Translated loadCase (payload.loads ++ derived.1)) payload.members inputs ∧
      FixedAtJoints payload.joints fixed ∧
      (payload.loads ++ derived.1).foldlM (addJointLoad py payload.joints loadCase)
        (List.replicate (payload.joints.length * 3) 0, assumptions) = .ok jointLoads ∧
      frame2dSolve sqrt payload.joints.length inputs fixed jointLoads.1 = .ok sol ∧
      FrameResult.Of payload sol r ∧ r.loadPath = derived.2 := by
  obtain ⟨derived, hderived, h⟩ := Fallible.bind_eq_ok.mp h
  obtain ⟨⟨⟩, htargets, h⟩ := Fallible.bind_eq_ok.mp h
  obtain ⟨⟨inputs, assumptions⟩, htranslated, h⟩ := Fallible.bind_eq_ok.mp h
  obtain ⟨fixed, hfixed, h⟩ := Fallible.bind_eq_ok.mp h
  obtain ⟨jointLoads, hjointLoads, h⟩ := Fallible.bind_eq_ok.mp h
  rcases hsol : frame2dSolve sqrt payload.joints.length inputs fixed jointLoads.1 with e | sol
  · rw [hsol] at h
    cases h
  · rw [hsol] at h
    obtain rfl := Except.ok.inj h
    exact ⟨derived, inputs, assumptions, fixed, jointLoads, sol, hderived,
      Fallible.forM_eq_ok.mp htargets, translateMembers_ok htranslated,
      translateSupports_ok hfixed, hjointLoads, hsol, ⟨rfl, rfl, rfl, rfl⟩, rfl⟩

theorem caseLoads_eq {py : PyStr K} {payload : FramePayload K} {loadCase : String}
    {transfers : List (Transfer K)}
    {sourceIntensities : String → String → Option (ScalarInterval K)}
    {derived : List (FrameLoad K) × List (LoadPath K)}
    (h : derivedLoads py payload.members loadCase transfers sourceIntensities = .ok derived) :
    caseLoads py payload loadCase transfers sourceIntensities
      = (payload.loads ++ derived.1).filter fun load => load.case = loadCase := by
  rw [caseLoads, h]
  rfl

theorem checkTarget_ok {py : PyStr K} {members : List (FrameMember K)} {loadCase : String}
    {load : FrameLoad K} (h : checkTarget py members loadCase load = .ok ())
    (hcase : load.case = loadCase) (hkind : load.kind = "distributed") :
    load.target ∈ members.map FrameMember.id := by
  unfold checkTarget at h
  split_ifs at h with hmissing
  by_contra hnot
  exact hmissing ⟨hcase, hkind, hnot⟩

variable [IsStrictOrderedRing K]

/-- **Load conservation**: the vertical reactions are the declared gravity load,
and every load entry is taken in, exactly if the loads on vertical members add
up to nothing and every entry is distributed or a point load. -/
theorem load_conservation_iff (py : PyStr K) (sq : ExactSqrt K) {payload : FramePayload K}
    {sectionMaterial : String → Option (SectionMaterial K)} {loadCase : String}
    {transfers : List (Transfer K)}
    {sourceIntensities : String → String → Option (ScalarInterval K)} {r : FrameResult K}
    (h : solveFramePayload py sq.sqrt payload sectionMaterial loadCase transfers sourceIntensities
      = .ok r) :
    (verticalReactions r = declaredGravity payload.members
          (caseLoads py payload loadCase transfers sourceIntensities) ∧
        ∀ load ∈ caseLoads py payload loadCase transfers sourceIntensities, TakenIn payload load) ↔
      (verticalLineLoad payload.members
          (caseLoads py payload loadCase transfers sourceIntensities) = 0 ∧
        ∀ load ∈ caseLoads py payload loadCase transfers sourceIntensities,
          load.kind = "distributed" ∨ load.kind = "point") := by
  obtain ⟨derived, inputs, assumptions, fixed, jointLoads, sol, hderived, htargets, hmembers,
    hfixed, hjointLoads, hsol, hr, -⟩ := solveFramePayload_ok h
  have hpoints := addJointLoads_ok hjointLoads
  rw [caseLoads_eq hderived]
  generalize payload.loads ++ derived.1 = loads at htargets hmembers hpoints ⊢
  have horientation : ∀ m ∈ payload.members,
      m.orientation = "horizontal" ∨ m.orientation = "vertical" := by
    intro m hm
    obtain ⟨input, -, hm⟩ := Fallible.exists_of_mem_left hmembers hm
    exact hm.orientation.imp And.left And.left
  have hkinds : ∀ m ∈ payload.members, ∀ load ∈ loads.filter (atMember loadCase m),
      load.kind = "distributed" := by
    intro m hm
    obtain ⟨input, -, hm⟩ := Fallible.exists_of_mem_left hmembers hm
    exact hm.fef.kinds
  have hvertical : (inputs.map (FrameMemberInput.fefVertical sq.sqrt)).sum
      = (((loads.filter fun load => load.case = loadCase).filter fun load =>
          load.kind = "distributed").map
            (lineLoad (payload.members.filter fun m => m.orientation = "horizontal"))).sum := by
    rw [← sum_horizontal hkinds]
    exact sum_fefVertical sq hmembers
  have hpoint : ((loads.filter fun load => load.case = loadCase).filter fun load =>
      load.kind = "point") = loads.filter (isPoint loadCase) := by
    rw [List.filter_filter]
    refine List.filter_congr fun load _ => ?_
    simp [isPoint, Bool.and_comm]
  -- the frame is in equilibrium: the reactions carry what was applied, the load on vertical
  -- members left out
  have hsum : verticalReactions r
      = (((loads.filter fun load => load.case = loadCase).filter fun load =>
          load.kind = "distributed").map
            (lineLoad (payload.members.filter fun m => m.orientation = "horizontal"))).sum
        + ((loads.filter (isPoint loadCase)).map loadSi).sum := by
    rw [verticalReactions, hr.joints, hr.reactions, sum_reactions_dict hfixed fun node =>
      (frame2dSolve_equilibrium hsol).reactions_free node 1, sum_reactions hsol, hvertical,
      hpoints.total, sub_neg_eq_add]
  rw [hsum, declaredGravity_split horientation, hpoint]
  refine and_congr ⟨fun heq => ?_, fun hzero => ?_⟩ (forall₂_congr fun load hload => ?_)
  · linear_combination -heq
  · rw [hzero, add_zero]
  · obtain ⟨hmem, hload⟩ := List.mem_filter.mp hload
    have hload : load.case = loadCase := of_decide_eq_true hload
    constructor
    · exact fun htaken => htaken.imp And.left And.left
    · rintro (hkind | hkind)
      · exact Or.inl ⟨hkind, checkTarget_ok (htargets load hmem) hload hkind⟩
      · refine Or.inr ⟨hkind, hpoints.targets load (List.mem_filter.mpr ⟨hmem, ?_⟩)⟩
        exact decide_eq_true ⟨hload, hkind⟩

end Conservation

/-! ### A beam and a column -/

def rationalSqrt : ExactSqrt ℚ := ⟨Rat.sqrt, Rat.sqrt_eq⟩

/-- The texts of the messages do not matter here. -/
def plainStr : PyStr ℚ := { repr := fun s => s, str := fun _ => "", unitError := fun _ => "" }

def unitSection : String → Option (SectionMaterial ℚ) := fun _ => some ⟨1, 1⟩

/-- One member of length 2 between two clamped joints, under one distributed
load. -/
def clampedMember (orientation : String) : FramePayload ℚ :=
  { joints := ["p", "q"]
    members := [⟨"m", "p", "q", orientation, ⟨2, 2, "m"⟩, [], []⟩]
    supports := [⟨"p", ["x", "y", "rz"]⟩, ⟨"q", ["x", "y", "rz"]⟩]
    loads := [⟨"dead", "m", "distributed", ⟨3, 3, "N"⟩, "gravity"⟩] }

/-- The beam carries its load of 6. -/
theorem load_conservation_beam :
    ∃ r, solveFramePayload plainStr rationalSqrt.sqrt (clampedMember "horizontal") unitSection "dead"
        [] (fun _ _ => none) = .ok r ∧
      (verticalReactions r = declaredGravity (clampedMember "horizontal").members
          (caseLoads plainStr (clampedMember "horizontal") "dead" [] fun _ _ => none) ∧
        ∀ load ∈ caseLoads plainStr (clampedMember "horizontal") "dead" [] fun _ _ => none,
          TakenIn (clampedMember "horizontal") load) := by
  have hsolved : (solveFramePayload plainStr rationalSqrt.sqrt (clampedMember "horizontal")
      unitSection "dead" [] (fun _ _ => none)).toOption.isSome := by
    decide +kernel
  have hr := Fallible.eq_ok_get hsolved
  refine ⟨_, hr, (load_conservation_iff plainStr rationalSqrt hr).mpr ⟨?_, ?_⟩⟩
  · decide +kernel
  · decide +kernel

/-- The column's load of 6 becomes horizontal reactions. -/
theorem not_load_conservation_column :
    ∃ r, solveFramePayload plainStr rationalSqrt.sqrt (clampedMember "vertical") unitSection "dead"
        [] (fun _ _ => none) = .ok r ∧
      verticalReactions r ≠ declaredGravity (clampedMember "vertical").members
        (caseLoads plainStr (clampedMember "vertical") "dead" [] fun _ _ => none) := by
  have hsolved : (solveFramePayload plainStr rationalSqrt.sqrt (clampedMember "vertical")
      unitSection "dead" [] (fun _ _ => none)).toOption.any fun r =>
        verticalReactions r ≠ declaredGravity (clampedMember "vertical").members
          (caseLoads plainStr (clampedMember "vertical") "dead" [] fun _ _ => none) := by
    decide +kernel
  obtain ⟨r, hr, hne⟩ := (Option.any_eq_true _ _).mp hsolved
  exact ⟨r, Fallible.eq_ok_of_toOption hr, of_decide_eq_true hne⟩

end Struct

end Feldspar

/-
Feldspar/PackIndependence.lean

When a solver pack has the same fate in company as alone.

Packs share one port table, and a registry without ports checks none (`register`
opts in with the first declaration), so a pack that never declares its ports is
judged by whether an earlier one declared any.  `KeepsApart` is the discipline
that takes this away: no call refers to a foreign port, and none is made before
the pack has a table of its own while there are foreign ports.

The proof runs a callable twice, over the base and over the base with foreign
ports (`Beside`): every call returns the same (`run_beside`), and so does the
merge (`mergePack_fate`).
-/
import Feldspar.PackIsolation

set_option linter.unusedSectionVars false

namespace Feldspar

variable {K : Type} [Field K] [LinearOrder K] {Env : Type}

namespace Packs

/-! ### One call, with and without foreign ports -/

/-- The ports that `register` looks up. -/
def touchedPorts (info : SolverInfo K) : List Port :=
  info.inputs ++ info.outputs ++ info.domain.portBox.keys

/-- A registration that is judged by the pack's own port table: it touches no
foreign port, and the table is not empty while there are foreign ports. -/
def CheckedApart (foreign : Port → Prop) (ports : PortMap PortDecl) (info : SolverInfo K) :
    Prop :=
  (∀ port ∈ touchedPorts info, ¬ foreign port) ∧
    (ports = ∅ → (∀ port, ¬ foreign port) ∨ touchedPorts info = [])

/-- The second table has the first one's ports, and some foreign ones. -/
structure Wider (foreign : Port → Prop) (ports ports' : PortMap PortDecl) : Prop where
  keeps : ∀ (port : Port) (decl : PortDecl), ports[port]? = some decl → ports'[port]? = some decl
  adds : ∀ port : Port, port ∈ ports' → port ∈ ports ∨ foreign port

section Foreign

variable {foreign : Port → Prop}

theorem Wider.mem {ports ports' : PortMap PortDecl} (h : Wider foreign ports ports') {port : Port}
    (hport : port ∈ ports) : port ∈ ports' := by
  obtain ⟨decl, hget⟩ := OrdMap.mem_iff_exists.mp hport
  exact OrdMap.mem_iff_exists.mpr ⟨decl, h.keeps port decl hget⟩

theorem CheckedApart.mono {foreign' : Port → Prop} {ports ports' : PortMap PortDecl}
    {info : SolverInfo K} (h : CheckedApart foreign ports info)
    (hforeign : ∀ port, foreign' port → foreign port)
    (hports : ∀ port : Port, port ∈ ports → port ∈ ports') : CheckedApart foreign' ports' info := by
  refine ⟨fun port hport hf => h.1 port hport (hforeign port hf), fun hempty => ?_⟩
  have hnone : ports = ∅ := by
    apply Std.ExtTreeMap.eq_empty_iff_forall_not_mem.mpr
    intro port hport
    exact Std.ExtTreeMap.eq_empty_iff_forall_not_mem.mp hempty port (hports port hport)
  exact (h.2 hnone).imp_left fun hno port hf => hno port (hforeign port hf)

/-- The check of the port table is the same. -/
theorem portCheck_wider {ports ports' : PortMap PortDecl} (h : Wider foreign ports ports')
    {info : SolverInfo K} (hinfo : CheckedApart foreign ports info) :
    (if ports'.isEmpty then none
      else ((touchedPorts info).find? fun port => port ∉ ports').map RegistryError.unknownPort)
    = if ports.isEmpty then none
      else ((touchedPorts info).find? fun port => port ∉ ports).map RegistryError.unknownPort := by
  by_cases hempty : ports = ∅
  · rw [if_pos (Std.ExtTreeMap.isEmpty_iff.mpr hempty)]
    rcases hinfo.2 hempty with hnone | hnil
    · have hempty' : ports' = ∅ := by
        apply Std.ExtTreeMap.eq_empty_iff_forall_not_mem.mpr
        intro port hport
        rcases h.adds port hport with hmem | hf
        · exact Std.ExtTreeMap.eq_empty_iff_forall_not_mem.mp hempty port hmem
        · exact hnone port hf
      rw [if_pos (Std.ExtTreeMap.isEmpty_iff.mpr hempty')]
    · rw [hnil]
      exact ite_self _
  · have hempty' : ports' ≠ ∅ := by
      intro hempty'
      apply hempty
      apply Std.ExtTreeMap.eq_empty_iff_forall_not_mem.mpr
      intro port hport
      exact Std.ExtTreeMap.eq_empty_iff_forall_not_mem.mp hempty' port (h.mem hport)
    rw [if_neg (mt Std.ExtTreeMap.isEmpty_iff.mp hempty),
      if_neg (mt Std.ExtTreeMap.isEmpty_iff.mp hempty')]
    congr 1
    apply Fallible.find?_congr_left
    intro port hport
    have hiff : port ∈ ports' ↔ port ∈ ports :=
      ⟨fun hmem => (h.adds port hmem).resolve_right (hinfo.1 port hport), h.mem⟩
    simp only [hiff]

/-- `register` says the same to a registry with foreign ports. -/
theorem rejection_wider {reg reg' : SolverRegistry K Env} {info : SolverInfo K}
    (hfrozen : reg'.frozen = reg.frozen)
    (hid : info.solverId ∈ reg'.solvers ↔ info.solverId ∈ reg.solvers)
    (hports : Wider foreign reg.ports reg'.ports) (hinfo : CheckedApart foreign reg.ports info) :
    reg'.rejection info = reg.rejection info := by
  unfold SolverRegistry.rejection
  rw [hfrozen]
  simp only [hid]
  have hcheck := portCheck_wider hports hinfo
  unfold touchedPorts at hcheck
  rw [hcheck]

/-- Two registrations that are judged alike both fail, or both succeed. -/
theorem register_congr {reg reg' : SolverRegistry K Env} {info : SolverInfo K}
    (fn : SolveFn K Env) (h : reg'.rejection info = reg.rejection info) :
    (∃ e, reg.register info fn = .error e ∧ reg'.register info fn = .error e) ∨
      ∃ made made', reg.register info fn = .ok made ∧ reg'.register info fn = .ok made' := by
  unfold SolverRegistry.register
  split
  · rename_i e hno
    apply Or.inl
    split
    · rename_i e' hno'
      rw [hno, hno'] at h
      exact ⟨e, rfl, congrArg _ (Option.some.inj h)⟩
    · rename_i hno'
      rw [hno, hno'] at h
      cases h
  · rename_i hno
    apply Or.inr
    split
    · rename_i e' hno'
      rw [hno, hno'] at h
      cases h
    · exact ⟨_, _, rfl, rfl⟩

/-! ### A callable, with and without foreign ports -/

/-- Every registration of a callable is checked apart, and nothing that it reads
from the port table depends on foreign ports. -/
def KeepsApart (foreign : Port → Prop) :
    RegisterProgram K Env → SolverRegistry K Env → Prop
  | .finish, _ => True
  | .raise _, _ => True
  | .declarePorts decls next, reg =>
      let called := reg.declarePorts decls
      KeepsApart foreign (next called.2) called.1
  | .register info fn next, reg =>
      let called := reg.registerCall info fn
      CheckedApart foreign reg.ports info ∧ KeepsApart foreign (next called.2) called.1
  | .freeze next, reg => KeepsApart foreign next reg.freeze
  | .readSolvers next, reg => KeepsApart foreign (next reg.solvers reg.frozen) reg
  | .readPorts next, reg =>
      (∀ ports', Wider foreign reg.ports ports' → next ports' = next reg.ports) ∧
        KeepsApart foreign (next reg.ports) reg

theorem KeepsApart.mono {foreign' : Port → Prop} (hforeign : ∀ port, foreign' port → foreign port)
    {program : RegisterProgram K Env} :
    ∀ {reg : SolverRegistry K Env}, KeepsApart foreign program reg →
      KeepsApart foreign' program reg := by
  induction program with
  | finish => exact fun h => h
  | raise message => exact fun h => h
  | declarePorts decls next ih => exact fun h => ih _ h
  | register info fn next ih =>
      exact fun h => ⟨h.1.mono hforeign fun _ hport => hport, ih _ h.2⟩
  | freeze next ih => exact fun h => ih h
  | readSolvers next ih => exact fun h => ih _ _ h
  | readPorts next ih =>
      refine fun h => ⟨fun ports' hports' => h.1 ports' ⟨hports'.keeps, fun port hport => ?_⟩,
        ih _ h.2⟩
      exact (hports'.adds port hport).imp_right (hforeign port)

/-- Where there are no foreign ports, every callable keeps apart. -/
theorem keepsApart_of_none (hnone : ∀ port, ¬ foreign port) (program : RegisterProgram K Env) :
    ∀ reg : SolverRegistry K Env, KeepsApart foreign program reg := by
  induction program with
  | finish => exact fun _ => trivial
  | raise message => exact fun _ => trivial
  | declarePorts decls next ih => exact fun reg => ih _ _
  | register info fn next ih =>
      exact fun reg => ⟨⟨fun port _ => hnone port, fun _ => Or.inl hnone⟩, ih _ _⟩
  | freeze next ih => exact fun reg => ih _
  | readSolvers next ih => exact fun reg => ih _ _ _
  | readPorts next ih =>
      refine fun reg => ⟨fun ports' hports' => congrArg next ?_, ih _ _⟩
      apply Std.ExtTreeMap.ext_getElem?
      intro port
      rcases hget : reg.ports[port]? with - | decl
      · apply Std.ExtTreeMap.getElem?_eq_none
        intro hport
        obtain ⟨decl, hget'⟩ :=
          OrdMap.mem_iff_exists.mp ((hports'.adds port hport).resolve_right (hnone port))
        rw [hget] at hget'
        cases hget'
      · exact hports'.keeps port decl hget

/-- Two staging registries of one pack, the second one with foreign ports. -/
structure Beside (foreign : Port → Prop) (reg reg' : SolverRegistry K Env) : Prop where
  solvers : reg'.solvers = reg.solvers
  frozen : reg'.frozen = reg.frozen
  wider : Wider foreign reg.ports reg'.ports
  checked : ∀ (id : SolverId) (e : SolverInfo K × SolveFn K Env), reg.solvers[id]? = some e →
    CheckedApart foreign reg.ports e.1

theorem Wider.insert {ports ports' : PortMap PortDecl} (h : Wider foreign ports ports')
    (decl : PortDecl) : Wider foreign (ports.insert decl.name decl)
      (ports'.insert decl.name decl) := by
  refine ⟨fun port decl' hget => ?_, fun port hport => ?_⟩
  · rw [OrdMap.getElem?_insert_eq] at hget ⊢
    split_ifs at hget ⊢
    · exact hget
    · exact h.keeps port decl' hget
  · rw [Std.ExtTreeMap.mem_insert] at hport ⊢
    rcases hport with heq | hport
    · exact Or.inl (Or.inl heq)
    · exact (h.adds port hport).imp_left Or.inr

theorem declarePort_wider {ports ports' : PortMap PortDecl} (h : Wider foreign ports ports')
    {decl : PortDecl}
    (hown : ∀ ports₁, SolverRegistry.declarePort ports decl = .ok ports₁ → ¬ foreign decl.name) :
    (∃ e, SolverRegistry.declarePort ports decl = .error e ∧
        SolverRegistry.declarePort ports' decl = .error e) ∨
      SolverRegistry.declarePort ports decl = .ok (ports.insert decl.name decl) ∧
        SolverRegistry.declarePort ports' decl = .ok (ports'.insert decl.name decl) := by
  unfold SolverRegistry.declarePort at hown ⊢
  rcases hkind : decl.rank.payloadKind.filter fun kind => kind ∉ payloadKinds with - | kind <;>
    rw [hkind] at hown
  swap
  · exact Or.inl ⟨_, rfl, rfl⟩
  · rcases hport : ports[decl.name]? with - | existing <;> rw [hport] at hown
    · have hfree : ports'[decl.name]? = none := by
        apply Std.ExtTreeMap.getElem?_eq_none
        intro hmem
        rcases h.adds _ hmem with hmem | hforeign
        · obtain ⟨decl', hget⟩ := OrdMap.mem_iff_exists.mp hmem
          rw [hport] at hget
          cases hget
        · exact hown _ rfl hforeign
      rw [hfree]
      exact Or.inr ⟨rfl, rfl⟩
    · rw [h.keeps _ _ hport]
      exact Or.inl ⟨_, rfl, rfl⟩

/-- A declaration of names that are not foreign returns the same. -/
theorem declarePorts_wider : ∀ (decls : List PortDecl) {reg reg' : SolverRegistry K Env},
    reg'.frozen = reg.frozen → Wider foreign reg.ports reg'.ports →
    (∀ port : Port, port ∈ (reg.declarePorts decls).1.ports → ¬ foreign port) →
    (reg'.declarePorts decls).2 = (reg.declarePorts decls).2 ∧
      Wider foreign (reg.declarePorts decls).1.ports (reg'.declarePorts decls).1.ports
  | [], reg, reg', hfrozen, hwider, _ => by
      unfold SolverRegistry.declarePorts
      rw [hfrozen]
      exact ⟨rfl, hwider⟩
  | decl :: decls, reg, reg', hfrozen, hwider, hown => by
      unfold SolverRegistry.declarePorts at hown ⊢
      rw [hfrozen]
      by_cases hf : reg.frozen = true
      · rw [if_pos hf, if_pos hf]
        exact ⟨rfl, hwider⟩
      · rw [if_neg hf] at hown
        rw [if_neg hf, if_neg hf]
        have hname : ∀ ports₁, SolverRegistry.declarePort reg.ports decl = .ok ports₁ →
            ¬ foreign decl.name := by
          intro ports₁ hok
          rw [hok] at hown
          obtain ⟨-, -, rfl⟩ := SolverRegistry.declarePort_ok.mp hok
          -- what is declared stays
          apply hown
          refine OrdMap.mem_iff_exists.mpr ⟨decl, SolverRegistry.declarePorts_ports decls _ ?_⟩
          show (reg.ports.insert decl.name decl)[decl.name]? = some decl
          rw [OrdMap.getElem?_insert_eq, if_pos rfl]
        rcases declarePort_wider hwider hname with ⟨e, herror, herror'⟩ | ⟨hok, hok'⟩
        · rw [herror, herror']
          exact ⟨rfl, hwider⟩
        · rw [hok] at hown
          rw [hok, hok']
          exact declarePorts_wider decls rfl (hwider.insert decl) hown

/-- A registration that is checked apart returns the same. -/
theorem registerCall_beside {reg reg' : SolverRegistry K Env} (h : Beside foreign reg reg')
    {info : SolverInfo K} (fn : SolveFn K Env) (hinfo : CheckedApart foreign reg.ports info) :
    (reg'.registerCall info fn).2 = (reg.registerCall info fn).2 ∧
      Beside foreign (reg.registerCall info fn).1 (reg'.registerCall info fn).1 := by
  have hsame : reg'.rejection info = reg.rejection info :=
    rejection_wider h.frozen (by rw [h.solvers]) h.wider hinfo
  unfold SolverRegistry.registerCall
  rcases register_congr fn hsame with ⟨e, herr, herr'⟩ | ⟨made, made', hok, hok'⟩
  · rw [herr, herr']
    exact ⟨rfl, h⟩
  · rw [hok, hok']
    obtain ⟨-, hsolvers, hports, hfrozen⟩ := SolverRegistry.register_ok hok
    obtain ⟨-, hsolvers', hports', hfrozen'⟩ := SolverRegistry.register_ok hok'
    refine ⟨rfl, ?_, ?_, ?_, fun id e hget => ?_⟩
    · rw [hsolvers, hsolvers', h.solvers]
    · rw [hfrozen, hfrozen', h.frozen]
    · rw [hports, hports']
      exact h.wider
    · rw [hsolvers, OrdMap.getElem?_insert_eq] at hget
      rw [hports]
      split_ifs at hget
      · exact Option.some.inj hget ▸ hinfo
      · exact h.checked id e hget

theorem declarePorts_beside {reg reg' : SolverRegistry K Env} (h : Beside foreign reg reg')
    (decls : List PortDecl)
    (hown : ∀ port : Port, port ∈ (reg.declarePorts decls).1.ports → ¬ foreign port) :
    (reg'.declarePorts decls).2 = (reg.declarePorts decls).2 ∧
      Beside foreign (reg.declarePorts decls).1 (reg'.declarePorts decls).1 := by
  obtain ⟨hsame, hwider⟩ := declarePorts_wider decls h.frozen h.wider hown
  refine ⟨hsame, ?_, ?_, hwider, fun id e hget => ?_⟩
  · rw [SolverRegistry.declarePorts_solvers, SolverRegistry.declarePorts_solvers, h.solvers]
  · rw [SolverRegistry.declarePorts_frozen, SolverRegistry.declarePorts_frozen, h.frozen]
  · rw [SolverRegistry.declarePorts_solvers] at hget
    refine (h.checked id e hget).mono (fun _ hf => hf) fun port hport => ?_
    obtain ⟨decl, hdecl⟩ := OrdMap.mem_iff_exists.mp hport
    exact OrdMap.mem_iff_exists.mpr ⟨decl, SolverRegistry.declarePorts_ports decls reg hdecl⟩

/-- **A callable that keeps apart** runs the same over a registry with foreign
ports, if it declares none of them. -/
theorem run_beside (program : RegisterProgram K Env) :
    ∀ {reg reg' : SolverRegistry K Env}, Beside foreign reg reg' →
      KeepsApart foreign program reg →
      (∀ port : Port, port ∈ (program.run reg).registry.ports → ¬ foreign port) →
      (program.run reg').outcome = (program.run reg).outcome ∧
        Beside foreign (program.run reg).registry (program.run reg').registry := by
  induction program with
  | finish => exact fun h _ _ => ⟨rfl, h⟩
  | raise message => exact fun h _ _ => ⟨rfl, h⟩
  | declarePorts decls next ih =>
      intro reg reg' h hapart hown
      obtain ⟨hsame, hbeside⟩ := declarePorts_beside h decls fun port hport => by
        obtain ⟨decl, hget⟩ := OrdMap.mem_iff_exists.mp hport
        exact hown port (OrdMap.mem_iff_exists.mpr
          ⟨decl, (extends_run (next (reg.declarePorts decls).2) _).ports port decl hget⟩)
      show ((next (reg'.declarePorts decls).2).run _).outcome = _ ∧
        Beside foreign _ ((next (reg'.declarePorts decls).2).run _).registry
      rw [hsame]
      exact ih _ hbeside hapart hown
  | register info fn next ih =>
      intro reg reg' h hapart hown
      obtain ⟨hsame, hbeside⟩ := registerCall_beside h fn hapart.1
      show ((next (reg'.registerCall info fn).2).run _).outcome = _ ∧
        Beside foreign _ ((next (reg'.registerCall info fn).2).run _).registry
      rw [hsame]
      exact ih _ hbeside hapart.2 hown
  | freeze next ih =>
      exact fun h hapart hown => ih ⟨h.solvers, rfl, h.wider, h.checked⟩ hapart hown
  | readSolvers next ih =>
      intro reg reg' h hapart hown
      show ((next reg'.solvers reg'.frozen).run reg').outcome = _ ∧
        Beside foreign _ ((next reg'.solvers reg'.frozen).run reg').registry
      rw [h.solvers, h.frozen]
      exact ih _ _ h hapart hown
  | readPorts next ih =>
      intro reg reg' h hapart hown
      show ((next reg'.ports).run reg').outcome = _ ∧
        Beside foreign _ ((next reg'.ports).run reg').registry
      -- the callable sees the foreign ports here, and does not depend on them
      rw [hapart.1 reg'.ports h.wider]
      exact ih _ h hapart.2 hown

/-! ### A merge, with and without foreign ports -/

/-- A replay ends the same. -/
theorem replay_fate (packName : String) :
    ∀ (staged : List (SolverInfo K × SolveFn K Env)) {st st' : ReplayState K Env},
      st'.registry.frozen = st.registry.frozen →
      Wider foreign st.registry.ports st'.registry.ports →
      (∀ e ∈ staged, CheckedApart foreign st.registry.ports e.1 ∧
        (e.1.solverId ∈ st'.registry.solvers ↔ e.1.solverId ∈ st.registry.solvers)) →
      (replay packName staged st').2 = (replay packName staged st).2
  | [], st, st', _, _, _ => rfl
  | (info, fn) :: staged, st, st', hfrozen, hwider, hstaged => by
      obtain ⟨hinfo, hid⟩ := hstaged _ List.mem_cons_self
      have hsame : st'.registry.rejection info = st.registry.rejection info :=
        rejection_wider hfrozen hid hwider hinfo
      unfold replay
      rcases register_congr fn hsame with ⟨e, herr, herr'⟩ | ⟨reg, reg', hok, hok'⟩
      · rw [herr, herr']
      · rw [hok, hok']
        obtain ⟨-, hsolvers, hports, hfrozen₁⟩ := SolverRegistry.register_ok hok
        obtain ⟨-, hsolvers', hports', hfrozen₁'⟩ := SolverRegistry.register_ok hok'
        apply replay_fate packName staged
        · exact hfrozen₁'.trans (hfrozen.trans hfrozen₁.symm)
        · show Wider foreign reg.ports reg'.ports
          rw [hports, hports']
          exact hwider
        · intro e he
          obtain ⟨hchecked, hmem⟩ := hstaged e (List.mem_cons_of_mem _ he)
          refine ⟨hports.symm ▸ hchecked, ?_⟩
          show e.1.solverId ∈ reg'.solvers ↔ e.1.solverId ∈ reg.solvers
          rw [hsolvers, hsolvers', Std.ExtTreeMap.mem_insert, Std.ExtTreeMap.mem_insert, hmem]

/-- What is wrong with a solver whose id is free does not depend on the owners. -/
theorem packViolation_of_free (standard reviewed : List String) {ownerOf ownerOf' : OwnerMap}
    (packName : String) {info : SolverInfo K} (hfree : info.solverId ∉ ownerOf)
    (hfree' : info.solverId ∉ ownerOf') :
    packViolation standard reviewed ownerOf' packName info
      = packViolation standard reviewed ownerOf packName info := by
  unfold packViolation
  rw [Std.ExtTreeMap.getElem?_eq_none hfree, Std.ExtTreeMap.getElem?_eq_none hfree']

/-- **A merge has the same fate** with foreign ports, if the staged ids are free
and the new ports are not foreign. -/
theorem mergePack_fate (standard reviewed : List String)
    {base reg staging staging' : SolverRegistry K Env} {owners ownerOf : OwnerMap}
    (hbeside : Beside foreign staging staging') (hfrozen : reg.frozen = base.frozen)
    (hbase : Consistent base owners) (hreg : Consistent reg ownerOf)
    (hstaged : StagedOver base staging) (hstaged' : StagedOver reg staging')
    (hfree : ∀ id : SolverId, id ∈ staging.solvers → id ∉ base.solvers ∧ id ∉ reg.solvers)
    (hnew : newPorts reg staging' = [] ↔ newPorts base staging = [])
    (packName version : String) :
    (mergePack standard reviewed reg ownerOf packName version staging').2.2
      = (mergePack standard reviewed base owners packName version staging).2.2 := by
  have hentries : staging'.entries = staging.entries := by
    unfold SolverRegistry.entries
    rw [hbeside.solvers]
  have hmem : ∀ e ∈ staging.entries, e.1.solverId ∈ staging.solvers := fun e he =>
    OrdMap.mem_iff_exists.mpr ⟨e, SolverRegistry.mem_entries.mp he⟩
  -- neither owner map has a staged id, so the check reads the same of both
  have hviolation : (staging.entries.findSome? fun e =>
        packViolation standard reviewed ownerOf packName e.1)
      = staging.entries.findSome? fun e => packViolation standard reviewed owners packName e.1 := by
    apply Fallible.findSome?_congr_left
    intro e he
    obtain ⟨hfree₁, hfree₂⟩ := hfree _ (hmem e he)
    exact packViolation_of_free standard reviewed packName (fun h => hfree₁ ((hbase.owners _).mp h))
      fun h => hfree₂ ((hreg.owners _).mp h)
  unfold mergePack
  rw [hentries, hviolation]
  rcases hfound : staging.entries.findSome? fun e =>
      packViolation standard reviewed owners packName e.1 with - | violation
  swap
  · rw [hfound]
  rw [hfound]
  -- new ports are refused by both registries, as both are frozen or neither
  rcases declareNew_cases hstaged with
      ⟨hne, hf, hdeclare⟩ | ⟨hor, base', hdeclare, hsolvers, hports, hfrozen₁⟩ <;>
    rcases declareNew_cases hstaged' with
      ⟨hne', hf', hdeclare'⟩ | ⟨hor', reg', hdeclare', hsolvers', hports', hfrozen₁'⟩
  · simp only [hdeclare, hdeclare']
  · exact absurd hor' (not_or.mpr ⟨fun h => hne (hnew.mp h), by rw [hfrozen, hf]; simp⟩)
  · exact absurd hor (not_or.mpr ⟨fun h => hne' (hnew.mpr h), by rw [← hfrozen, hf']; simp⟩)
  · simp only [hdeclare, hdeclare']
    have hreplay : (replay packName staging.entries ⟨reg', ownerOf, []⟩).2
        = (replay packName staging.entries ⟨base', owners, []⟩).2 := by
      apply replay_fate packName staging.entries
      · exact hfrozen₁'.trans (hfrozen.trans hfrozen₁.symm)
      · show Wider foreign base'.ports reg'.ports
        rw [hports, hports']
        exact hbeside.wider
      · intro e he
        obtain ⟨hfree₁, hfree₂⟩ := hfree _ (hmem e he)
        constructor
        · show CheckedApart foreign base'.ports e.1
          rw [hports]
          exact hbeside.checked _ e (SolverRegistry.mem_entries.mp he)
        · show e.1.solverId ∈ reg'.solvers ↔ e.1.solverId ∈ base'.solvers
          rw [hsolvers, hsolvers']
          exact iff_of_false hfree₂ hfree₁
    rcases hrun : replay packName staging.entries ⟨base', owners, []⟩ with ⟨st, error⟩
    rcases hrun' : replay packName staging.entries ⟨reg', ownerOf, []⟩ with ⟨st', error'⟩
    rw [hrun, hrun'] at hreplay
    obtain rfl : error' = error := hreplay
    cases error' <;> rfl

end Foreign

/-! ### Whole compositions -/

/-- The staging registry of a pack that is loaded alone onto the base. -/
def stagedAlone (base : SolverRegistry K Env) (ep : SolverPackEntryPoint K Env) :
    SolverRegistry K Env :=
  match ep.load, seedStaging base with
  | .callable program, .ok seeded => (program.run seeded).registry
  | _, _ => .empty

/-- The ports that a pack declares beyond the base's. -/
def DeclaresAlone (base : SolverRegistry K Env) (ep : SolverPackEntryPoint K Env) (port : Port) :
    Prop :=
  port ∈ (stagedAlone base ep).ports ∧ port ∉ base.ports

def DeclaredBy (base : SolverRegistry K Env) (eps : List (SolverPackEntryPoint K Env))
    (port : Port) : Prop :=
  ∃ ep ∈ eps, DeclaresAlone base ep port

/-- Solver ids and declared port names are pairwise disjoint, and disjoint from
the base's. -/
structure DisjointPacks (base : SolverRegistry K Env) (eps : List (SolverPackEntryPoint K Env)) :
    Prop where
  fresh : ∀ ep ∈ eps, ∀ id : SolverId, id ∈ (stagedAlone base ep).solvers → id ∉ base.solvers
  solvers : eps.Pairwise fun ep ep' => ∀ id : SolverId, id ∈ (stagedAlone base ep).solvers →
    id ∉ (stagedAlone base ep').solvers
  ports : eps.Pairwise fun ep ep' => ∀ port, DeclaresAlone base ep port →
    ¬ DeclaresAlone base ep' port

/-- The callable of an entry point keeps apart when it runs alone. -/
def EntryKeepsApart (foreign : Port → Prop) (base : SolverRegistry K Env)
    (ep : SolverPackEntryPoint K Env) : Prop :=
  ∀ program seeded, ep.load = .callable program → seedStaging base = .ok seeded →
    KeepsApart foreign program seeded

/-- No pack depends on the ports of an earlier one. -/
def PacksKeepApart (base : SolverRegistry K Env) (eps : List (SolverPackEntryPoint K Env)) :
    Prop :=
  ∀ before ep after, sortedByName eps = before ++ ep :: after →
    EntryKeepsApart (DeclaredBy base before) base ep

theorem stagedAlone_callable {base seeded : SolverRegistry K Env}
    {ep : SolverPackEntryPoint K Env} {program : RegisterProgram K Env}
    (hload : ep.load = .callable program) (hseed : seedStaging base = .ok seeded) :
    stagedAlone base ep = (program.run seeded).registry := by
  unfold stagedAlone
  rw [hload, hseed]

section Load

variable (standard reviewed : List String)

/-- A pack has the fate that it has when it is loaded alone onto the base: the
same report, and the same solvers contributed. -/
def SameFate (base : SolverRegistry K Env) (st : LoadState K Env)
    (ep : SolverPackEntryPoint K Env) : Prop :=
  ∃ st' alone, loadPack standard reviewed st ep = .ok st' ∧
    loadSolverPacks standard reviewed base [ep] = .ok alone ∧
    st'.loaded = st.loaded ++ alone.loaded ∧ st'.skipped = st.skipped ++ alone.skipped ∧
    ∀ (id : SolverId) (e : SolverInfo K × SolveFn K Env),
      (id ∉ st.registry.solvers ∧ st'.registry.solvers[id]? = some e) ↔
        id ∉ base.solvers ∧ alone.registry.solvers[id]? = some e

/-- Every pack of a composition has the fate that it has alone. -/
def Independent (base : SolverRegistry K Env) (eps : List (SolverPackEntryPoint K Env)) : Prop :=
  ∀ before ep after, sortedByName eps = before ++ ep :: after →
    ∃ st, before.foldlM (loadPack standard reviewed) (.init base) = .ok st ∧
      SameFate standard reviewed base st ep

/-- What the packs before this one have left. -/
structure Company (base : SolverRegistry K Env) (before : List (SolverPackEntryPoint K Env))
    (st : LoadState K Env) : Prop where
  composed : ∃ contributions, Composed base st contributions
  frozen : st.registry.frozen = base.frozen
  ports : ∀ port : Port, port ∈ st.registry.ports → port ∈ base.ports ∨ DeclaredBy base before port
  solvers : ∀ id : SolverId, id ∈ st.registry.solvers → id ∈ base.solvers ∨
    ∃ ep ∈ before, id ∈ (stagedAlone base ep).solvers

theorem Company.base_ports {base : SolverRegistry K Env} {st : LoadState K Env}
    {before : List (SolverPackEntryPoint K Env)} (h : Company base before st) (port : Port)
    (decl : PortDecl) (hget : base.ports[port]? = some decl) :
    st.registry.ports[port]? = some decl := by
  obtain ⟨contributions, hcomposed⟩ := h.composed
  exact (hcomposed.ports port decl).mpr (Or.inl hget)

theorem Company.mem_base_ports {base : SolverRegistry K Env} {st : LoadState K Env}
    {before : List (SolverPackEntryPoint K Env)} (h : Company base before st) (port : Port)
    (hport : port ∈ base.ports) : port ∈ st.registry.ports := by
  obtain ⟨decl, hget⟩ := OrdMap.mem_iff_exists.mp hport
  exact OrdMap.mem_iff_exists.mpr ⟨decl, h.base_ports port decl hget⟩

theorem Company.consistent {base : SolverRegistry K Env} {st : LoadState K Env}
    {before : List (SolverPackEntryPoint K Env)} (h : Company base before st) :
    Consistent st.registry st.ownerOf := by
  obtain ⟨contributions, hcomposed⟩ := h.composed
  exact hcomposed.consistent

theorem newPorts_eq_nil {reg staging : SolverRegistry K Env} :
    newPorts reg staging = [] ↔ ∀ port : Port, port ∈ staging.ports → port ∈ reg.ports := by
  rw [List.eq_nil_iff_forall_not_mem]
  constructor
  · intro h port hport
    by_contra hnew
    obtain ⟨decl, hget⟩ := OrdMap.mem_iff_exists.mp hport
    exact h decl (mem_newPorts.mpr ⟨port, hget, hnew⟩)
  · intro h decl hdecl
    obtain ⟨port, hget, hnew⟩ := mem_newPorts.mp hdecl
    exact hnew (h port (OrdMap.mem_iff_exists.mpr ⟨decl, hget⟩))

/-- What the pack at this place has to do with the earlier ones: nothing. -/
structure ApartFrom (base : SolverRegistry K Env) (before : List (SolverPackEntryPoint K Env))
    (ep : SolverPackEntryPoint K Env) : Prop where
  fresh : ∀ id : SolverId, id ∈ (stagedAlone base ep).solvers → id ∉ base.solvers
  solvers : ∀ ep' ∈ before, ∀ id : SolverId, id ∈ (stagedAlone base ep').solvers →
    id ∉ (stagedAlone base ep).solvers
  ports : ∀ port, DeclaresAlone base ep port → ¬ DeclaredBy base before port
  keeps : EntryKeepsApart (DeclaredBy base before) base ep

/-- One pack in company and the same pack alone. -/
structure FatesAgree (base reg : SolverRegistry K Env) (ep : SolverPackEntryPoint K Env)
    (made alone : SolverRegistry K Env × OwnerMap × PackFate) : Prop where
  fate : made.2.2 = alone.2.2
  contributed : ∀ (id : SolverId) (e : SolverInfo K × SolveFn K Env),
    (id ∉ reg.solvers ∧ made.1.solvers[id]? = some e) ↔
      id ∉ base.solvers ∧ alone.1.solvers[id]? = some e
  ports : ∀ port : Port, port ∈ made.1.ports → port ∈ reg.ports ∨ DeclaresAlone base ep port
  solvers : ∀ id : SolverId, id ∈ made.1.solvers → id ∈ reg.solvers ∨
    id ∈ (stagedAlone base ep).solvers
  frozen : made.1.frozen = reg.frozen

theorem fatesAgree_skipped (base reg : SolverRegistry K Env) (ep : SolverPackEntryPoint K Env)
    (owners ownerOf : OwnerMap) (error : SolverPackLoadError) :
    FatesAgree base reg ep (reg, ownerOf, .skipped error) (base, owners, .skipped error) where
  fate := rfl
  contributed id e := by
    apply iff_of_false
    · exact fun h => h.1 (OrdMap.mem_iff_exists.mpr ⟨e, h.2⟩)
    · exact fun h => h.1 (OrdMap.mem_iff_exists.mpr ⟨e, h.2⟩)
  ports port hport := Or.inl hport
  solvers id hid := Or.inl hid
  frozen := rfl

section Agree

variable {base reg staging staging' : SolverRegistry K Env} {owners ownerOf : OwnerMap}

/-- The ports of the first packs: in the table, and not the base's. -/
def Extra (base reg : SolverRegistry K Env) (port : Port) : Prop :=
  port ∈ reg.ports ∧ port ∉ base.ports

/-- A pack has new ports in company if it has new ports alone. -/
theorem newPorts_beside (hports : ∀ port : Port, port ∈ base.ports → port ∈ reg.ports)
    (hbeside : Beside (Extra base reg) staging staging')
    (hown : ∀ port : Port, port ∈ staging.ports → ¬ Extra base reg port) :
    newPorts reg staging' = [] ↔ newPorts base staging = [] := by
  rw [newPorts_eq_nil, newPorts_eq_nil]
  constructor
  · intro hnone port hport
    by_contra hnot
    exact hown port hport ⟨hnone port (hbeside.wider.mem hport), hnot⟩
  · intro hnone port hport
    rcases hbeside.wider.adds port hport with hport | hextra
    · exact hports port (hnone port hport)
    · exact hextra.1

/-- Two merges that both load the pack contribute the same. -/
theorem fatesAgree_merged {base' reg' : SolverRegistry K Env} {owners' ownerOf' : OwnerMap}
    {ep : SolverPackEntryPoint K Env} {info : PackInfo}
    (hports : ∀ port : Port, port ∈ base.ports → port ∈ reg.ports)
    (hbeside : Beside (Extra base reg) staging staging') (halone : stagedAlone base ep = staging)
    (hfree : ∀ id : SolverId, id ∈ staging.solvers → id ∉ base.solvers ∧ id ∉ reg.solvers)
    (hmerged : Merged base owners ep.name staging base' owners')
    (hmerged' : Merged reg ownerOf ep.name staging' reg' ownerOf') :
    FatesAgree base reg ep (reg', ownerOf', .loaded info) (base', owners', .loaded info) where
  fate := rfl
  contributed id e := by
    show id ∉ reg.solvers ∧ reg'.solvers[id]? = some e ↔
      id ∉ base.solvers ∧ base'.solvers[id]? = some e
    rw [hmerged.solvers, hmerged'.solvers, hbeside.solvers]
    constructor
    · rintro ⟨hnot, hget | hget⟩
      · exact absurd (OrdMap.mem_iff_exists.mpr ⟨e, hget⟩) hnot
      · exact ⟨(hfree id (OrdMap.mem_iff_exists.mpr ⟨e, hget⟩)).1, Or.inr hget⟩
    · rintro ⟨hnot, hget | hget⟩
      · exact absurd (OrdMap.mem_iff_exists.mpr ⟨e, hget⟩) hnot
      · exact ⟨(hfree id (OrdMap.mem_iff_exists.mpr ⟨e, hget⟩)).2, Or.inr hget⟩
  ports port hport := by
    have hmem : port ∈ staging'.ports := hmerged'.ports ▸ hport
    by_cases hreg : port ∈ reg.ports
    · exact Or.inl hreg
    · rcases hbeside.wider.adds port hmem with hmem | hextra
      · exact Or.inr ⟨halone.symm ▸ hmem, fun hbaseport => hreg (hports port hbaseport)⟩
      · exact absurd hextra.1 hreg
  solvers id hid := by
    obtain ⟨e, hget⟩ := OrdMap.mem_iff_exists.mp hid
    rcases (hmerged'.solvers id e).mp hget with hget | hget
    · exact Or.inl (OrdMap.mem_iff_exists.mpr ⟨e, hget⟩)
    · rw [hbeside.solvers] at hget
      exact Or.inr (halone.symm ▸ OrdMap.mem_iff_exists.mpr ⟨e, hget⟩)
  frozen := hmerged'.frozen

/-- A merge in company agrees with the merge alone. -/
theorem mergePack_agree (hbase : Consistent base owners) (hreg : Consistent reg ownerOf)
    (hfrozen : reg.frozen = base.frozen)
    (hports : ∀ port : Port, port ∈ base.ports → port ∈ reg.ports)
    (hstaged : StagedOver base staging) (hstaged' : StagedOver reg staging')
    (hbeside : Beside (Extra base reg) staging staging')
    (hown : ∀ port : Port, port ∈ staging.ports → ¬ Extra base reg port)
    {ep : SolverPackEntryPoint K Env} (halone : stagedAlone base ep = staging)
    (hfree : ∀ id : SolverId, id ∈ staging.solvers → id ∉ base.solvers ∧ id ∉ reg.solvers) :
    FatesAgree base reg ep
      (mergePack standard reviewed reg ownerOf ep.name (packVersion ep) staging')
      (mergePack standard reviewed base owners ep.name (packVersion ep) staging) := by
  have hfate := mergePack_fate standard reviewed hbeside hfrozen hbase hreg hstaged hstaged' hfree
    (newPorts_beside hports hbeside hown) ep.name (packVersion ep)
  rcases mergePack_cases standard reviewed hbase hstaged ep.name (packVersion ep) with
      ⟨error, hmade⟩ | ⟨base', owners', hmade, hmerged, -⟩ <;>
    rcases mergePack_cases standard reviewed hreg hstaged' ep.name (packVersion ep) with
      ⟨error', hmade'⟩ | ⟨reg', ownerOf', hmade', hmerged', -⟩ <;>
    rw [hmade, hmade'] at hfate
  · obtain rfl : error' = error := PackFate.skipped.inj hfate
    rw [hmade, hmade']
    exact fatesAgree_skipped _ _ _ _ _ _
  · cases hfate
  · cases hfate
  · rw [hmade, hmade']
    exact fatesAgree_merged hports hbeside halone hfree hmerged hmerged'

end Agree

/-- **The step**: a pack that keeps apart does in company what it does alone. -/
theorem composePack_agree {base : SolverRegistry K Env} {owners : OwnerMap}
    (hbase : Consistent base owners) {st : LoadState K Env}
    {before : List (SolverPackEntryPoint K Env)} (h : Company base before st)
    {ep : SolverPackEntryPoint K Env} (hep : ApartFrom base before ep) :
    ∃ made alone, composePack standard reviewed st.registry st.ownerOf ep = .ok made ∧
      composePack standard reviewed base owners ep = .ok alone ∧
      FatesAgree base st.registry ep made alone := by
  by_cases hcallable : ∃ program, ep.load = .callable program
  swap
  · obtain ⟨error, hskipped⟩ := composePack_malformed standard reviewed
      fun program (hload : ep.load = .callable program) => hcallable ⟨program, hload⟩
    exact ⟨_, _, hskipped _ _, hskipped _ _, fatesAgree_skipped _ _ _ _ _ _⟩
  obtain ⟨program, hload⟩ := hcallable
  have hreg := h.consistent
  obtain ⟨seeded, hseed, hports, hsolvers, hfrozen⟩ := seedStaging_ok hbase.ports
  obtain ⟨seeded', hseed', hports', hsolvers', hfrozen'⟩ := seedStaging_ok hreg.ports
  have halone := stagedAlone_callable hload hseed
  -- a port that only the company has was declared by a pack before this one
  have hforeign : ∀ port : Port, Extra base st.registry port → DeclaredBy base before port :=
    fun port hport => (h.ports port hport.1).resolve_left hport.2
  have hown : ∀ port : Port, port ∈ (program.run seeded).registry.ports →
      ¬ Extra base st.registry port := by
    intro port hport hextra
    exact hep.ports port ⟨halone.symm ▸ hport, hextra.2⟩ (hforeign port hextra)
  have hbeside : Beside (Extra base st.registry) seeded seeded' := by
    refine ⟨hsolvers'.trans hsolvers.symm, hfrozen'.trans hfrozen.symm, ⟨?_, ?_⟩, ?_⟩
    · rw [hports, hports']
      exact h.base_ports
    · rw [hports, hports']
      exact fun port hport => (em _).imp_right fun hnot => ⟨hport, hnot⟩
    · intro id e hget
      rw [hsolvers] at hget
      exact absurd hget (by simp)
  obtain ⟨houtcome, hrun⟩ := run_beside program hbeside
    ((hep.keeps program seeded hload hseed).mono hforeign) hown
  rw [composePack_callable standard reviewed hload hseed,
    composePack_callable standard reviewed hload hseed', houtcome]
  refine ⟨_, _, rfl, rfl, ?_⟩
  rcases (program.run seeded).outcome with message | ⟨⟩
  · exact fatesAgree_skipped _ _ _ _ _ _
  · apply mergePack_agree standard reviewed hbase hreg h.frozen h.mem_base_ports
      (stagedOver_run hbase.ports hports program) (stagedOver_run hreg.ports hports' program) hrun
      hown halone
    rw [← halone]
    refine fun id hid => ⟨hep.fresh id hid, fun hmem => ?_⟩
    rcases h.solvers id hmem with hmem | ⟨ep', hep', hmem⟩
    · exact hep.fresh id hid hmem
    · exact hep.solvers ep' hep' id hmem hid

/-- The step of a composition keeps the company. -/
theorem loadPack_company {base : SolverRegistry K Env} (hbase : base.PortsConsistent)
    {st : LoadState K Env} {before : List (SolverPackEntryPoint K Env)} (h : Company base before st)
    {ep : SolverPackEntryPoint K Env} (hep : ApartFrom base before ep) :
    SameFate standard reviewed base st ep ∧
      ∃ st', loadPack standard reviewed st ep = .ok st' ∧ Company base (before ++ [ep]) st' := by
  obtain ⟨contributions, hcomposed⟩ := h.composed
  obtain ⟨⟨registry, ownerOf, fate⟩, ⟨registry₀, owners₀, fate₀⟩, hmade, halone, hagree⟩ :=
    composePack_agree standard reviewed (Composed.init hbase).consistent h hep
  obtain rfl : fate = fate₀ := hagree.fate
  have hstep : loadPack standard reviewed st ep = .ok (st.record registry ownerOf fate) := by
    unfold loadPack
    rw [hmade]
    rfl
  have hstep₀ : loadPack standard reviewed (.init base) ep
      = .ok ((LoadState.init base).record registry₀ owners₀ fate) := by
    unfold loadPack
    rw [show composePack standard reviewed (LoadState.init base).registry
      (LoadState.init base).ownerOf ep = _ from halone]
    rfl
  have hregistry : (st.record registry ownerOf fate).registry = registry := by
    cases fate <;> rfl
  refine ⟨⟨_, (LoadState.init base).record registry₀ owners₀ fate, hstep, ?_, ?_, ?_, ?_⟩,
    _, hstep, ?_⟩
  · show [ep].foldlM (loadPack standard reviewed) (.init base) = _
    rw [List.foldlM_cons, hstep₀]
    rfl
  · cases fate <;> simp [LoadState.record, LoadState.init]
  · cases fate <;> simp [LoadState.record, LoadState.init]
  · intro id e
    rw [hregistry, hagree.contributed id e]
    cases fate <;> rfl
  · obtain ⟨st', more, hstep', -, hcomposed', -⟩ := loadPack_cases standard reviewed hcomposed ep
    obtain rfl := Except.ok.inj (hstep.symm.trans hstep')
    refine ⟨⟨_, hcomposed'⟩, ?_, ?_, ?_⟩
    · rw [hregistry]
      exact hagree.frozen.trans h.frozen
    · rw [hregistry]
      intro port hport
      rcases hagree.ports port hport with hport | hdeclares
      · exact (h.ports port hport).imp_right fun hex => hex.imp fun _ hd =>
          ⟨List.mem_append_left _ hd.1, hd.2⟩
      · exact Or.inr ⟨ep, List.mem_append_right _ List.mem_cons_self, hdeclares⟩
    · rw [hregistry]
      intro id hid
      rcases hagree.solvers id hid with hid | hid
      · exact (h.solvers id hid).imp_right fun hex => hex.imp fun _ hd =>
          ⟨List.mem_append_left _ hd.1, hd.2⟩
      · exact Or.inr ⟨ep, List.mem_append_right _ List.mem_cons_self, hid⟩

theorem Company.init {base : SolverRegistry K Env} (h : base.PortsConsistent) :
    Company base [] (.init base) :=
  ⟨⟨[], Composed.init h⟩, rfl, fun _ hport => Or.inl hport, fun _ hid => Or.inl hid⟩

/-- Disjoint packs that keep apart are apart from the earlier ones. -/
theorem apartFrom_of_disjoint {base : SolverRegistry K Env}
    {eps before after : List (SolverPackEntryPoint K Env)} {ep : SolverPackEntryPoint K Env}
    (hdisjoint : DisjointPacks base eps) (hkeeps : PacksKeepApart base eps)
    (hsplit : sortedByName eps = before ++ ep :: after) : ApartFrom base before ep := by
  have hperm : (before ++ ep :: after).Perm eps := hsplit ▸ List.perm_insertionSort _ _
  have hsolvers := (hperm.pairwise_iff fun h id hid hid' => h id hid' hid).mpr hdisjoint.solvers
  have hports := (hperm.pairwise_iff fun h port hd hd' => h port hd' hd).mpr hdisjoint.ports
  refine ⟨?_, fun ep' hep' => ?_, ?_, hkeeps before ep after hsplit⟩
  · exact hdisjoint.fresh ep (hperm.mem_iff.mp (List.mem_append_right _ List.mem_cons_self))
  · exact (List.pairwise_append.mp hsolvers).2.2 ep' hep' ep List.mem_cons_self
  · rintro port hdeclares ⟨ep', hep', hdeclares'⟩
    exact (List.pairwise_append.mp hports).2.2 ep' hep' ep List.mem_cons_self port hdeclares'
      hdeclares

/-- The run of a composition. -/
theorem foldlM_company {base : SolverRegistry K Env} (hbase : base.PortsConsistent)
    {eps : List (SolverPackEntryPoint K Env)} (hdisjoint : DisjointPacks base eps)
    (hkeeps : PacksKeepApart base eps) (before : List (SolverPackEntryPoint K Env)) :
    ∀ after, sortedByName eps = before ++ after →
      ∃ st, before.foldlM (loadPack standard reviewed) (.init base) = .ok st ∧
        Company base before st := by
  induction before using List.reverseRecOn with
  | nil => exact fun _ _ => ⟨_, rfl, Company.init hbase⟩
  | append_singleton before ep ih =>
      intro after hsplit
      rw [List.append_assoc] at hsplit
      obtain ⟨st, hrun, hcompany⟩ := ih _ hsplit
      obtain ⟨-, st', hstep, hcompany'⟩ := loadPack_company standard reviewed hbase hcompany
        (apartFrom_of_disjoint hdisjoint hkeeps hsplit)
      refine ⟨st', ?_, hcompany'⟩
      rw [List.foldlM_append, hrun]
      show [ep].foldlM (loadPack standard reviewed) st = _
      rw [List.foldlM_cons, hstep]
      rfl

/-- A pack is reported as loaded only if its callable did not raise and what it
staged is merged. -/
def LoadedIfMerged (base : SolverRegistry K Env) (eps : List (SolverPackEntryPoint K Env)) :
    Prop :=
  ∀ before ep after st st', sortedByName eps = before ++ ep :: after →
    before.foldlM (loadPack standard reviewed) (.init base) = .ok st →
    loadPack standard reviewed st ep = .ok st' → st'.loaded ≠ st.loaded →
    ∃ c, StagedBy st.registry ep c ∧
      Merged st.registry st.ownerOf ep.name c.staging st'.registry st'.ownerOf

/-- **Packs that keep apart are independent**: disjoint packs, none of which
depends on the ports of an earlier one, have the fate that they have alone. -/
theorem loadSolverPacks_independent {base : SolverRegistry K Env} (hbase : base.Built)
    {eps : List (SolverPackEntryPoint K Env)} (hdisjoint : DisjointPacks base eps)
    (hkeeps : PacksKeepApart base eps) :
    Independent standard reviewed base eps ∧ LoadedIfMerged standard reviewed base eps := by
  have hports := hbase.portsConsistent
  constructor
  · intro before ep after hsplit
    obtain ⟨st, hrun, hcompany⟩ :=
      foldlM_company standard reviewed hports hdisjoint hkeeps before _ hsplit
    exact ⟨st, hrun, (loadPack_company standard reviewed hports hcompany
      (apartFrom_of_disjoint hdisjoint hkeeps hsplit)).1⟩
  · intro before ep after st st' _ hrun hstep hloaded
    obtain ⟨st₁, contributions, hrun₁, hcomposed, -⟩ :=
      foldlM_loadPack standard reviewed before (Composed.init hports)
    obtain rfl := Except.ok.inj (hrun.symm.trans hrun₁)
    obtain ⟨st₂, -, hstep₂, hadds, -⟩ := loadPack_cases standard reviewed hcomposed ep
    obtain rfl := Except.ok.inj (hstep.symm.trans hstep₂)
    rcases hadds with ⟨error, rfl⟩ | ⟨c, hby, hmerged, -⟩
    · exact absurd rfl hloaded
    · exact ⟨c, hby, hmerged⟩

end Load

/-! ### Two packs -/

/-- A solver `x → y` of a pack. -/
def portSolver (name : String) (x y : Port) : SolverInfo ℚ :=
  { plainInfo (plainSolver (name ++ ".life") [x] [(y, 0)] 1 .both) with ns := name }

/-- A pack that declares its ports, and registers a solver on them. -/
def portPack (name : String) (x y : Port) : SolverPackEntryPoint ℚ Unit :=
  ⟨name, .callable (.declarePorts [⟨x, "m", .scalar⟩, ⟨y, "m", .scalar⟩] fun _ =>
    .register (portSolver name x y) (plainFn fun v => [(y, scalarArg v x)]) fun _ => .finish),
    some "1"⟩

/-- A pack that opts out of the port table, and raises if its solver is
rejected. -/
def plainPack (name : String) (x y : Port) : SolverPackEntryPoint ℚ Unit :=
  ⟨name, .callable (.register (portSolver name x y) (plainFn fun v => [(y, scalarArg v x)]) fun
    | .ok () => .finish
    | .error _ => .raise "rejected"), some "1"⟩

theorem sortedByName_pair {ep ep' : SolverPackEntryPoint ℚ Unit} (h : ep.name ≤ ep'.name) :
    sortedByName [ep, ep'] = [ep, ep'] := by
  unfold sortedByName
  rw [List.insertionSort_cons, List.insertionSort_cons, List.insertionSort_nil,
    List.orderedInsert_nil, List.orderedInsert_cons, if_pos h]

/-- Two packs whose staged ids and ports are different. -/
theorem disjointPacks_pair {ep ep' : SolverPackEntryPoint ℚ Unit}
    (hsolvers : ∀ id : SolverId, id ∈ (stagedAlone .empty ep).solvers →
      id ∉ (stagedAlone .empty ep').solvers)
    (hports : ∀ port : Port, port ∈ (stagedAlone .empty ep).ports →
      port ∉ (stagedAlone .empty ep').ports) : DisjointPacks .empty [ep, ep'] where
  fresh _ _ _ _ := by simp [SolverRegistry.empty]
  solvers := by simpa using hsolvers
  ports := by
    rw [List.pairwise_pair]
    exact fun port hport hport' => hports port hport.1 hport'.1

/-- Each one on ports of its own. -/
def bearingsPack : SolverPackEntryPoint ℚ Unit := portPack "bearings" "load" "life"

def gearsPack : SolverPackEntryPoint ℚ Unit := portPack "gears" "torque" "ratio"

/-- On ports that nobody declares. -/
def plainGearsPack : SolverPackEntryPoint ℚ Unit := plainPack "gears" "torque" "ratio"

theorem stagedAlone_bearings :
    (stagedAlone .empty bearingsPack).solvers.keys = ["bearings.life"] ∧
      (stagedAlone .empty bearingsPack).ports.keys = ["life", "load"] := by
  decide +kernel

theorem packsKeepApart_gears : PacksKeepApart .empty [bearingsPack, gearsPack] := by
  intro before ep after hsplit program seeded hload hseed
  rw [sortedByName_pair (by decide)] at hsplit
  rcases before with - | ⟨first, - | ⟨second, before⟩⟩
  · exact keepsApart_of_none (fun port ⟨ep', hep', _⟩ => absurd hep' List.not_mem_nil) _ _
  · -- the gears, after the bearings
    obtain ⟨rfl, hrest⟩ := List.cons.inj hsplit
    obtain ⟨rfl, -⟩ := List.cons.inj hrest
    obtain rfl := EntryPointTarget.callable.inj hload
    have hforeign : ∀ port, DeclaredBy .empty [bearingsPack] port → port = "life" ∨ port = "load" := by
      rintro port ⟨ep, hep, hdeclares⟩
      rw [List.mem_singleton.mp hep] at hdeclares
      have hmem := Std.ExtTreeMap.mem_keys.mpr hdeclares.1
      rw [stagedAlone_bearings.2] at hmem
      simpa using hmem
    obtain rfl : SolverRegistry.empty = seeded := Except.ok.inj hseed
    refine ⟨⟨fun port hport hf => ?_, fun hempty => ?_⟩, trivial⟩
    · have htouched : port = "torque" ∨ port = "ratio" := by
        have hports : touchedPorts (portSolver "gears" "torque" "ratio") = ["torque", "ratio"] := by
          decide +kernel
        rw [hports] at hport
        simpa using hport
      rcases hforeign port hf with rfl | rfl <;> simp at htouched
    · have hmem : ("torque" : Port) ∈ ((SolverRegistry.empty : SolverRegistry ℚ Unit).declarePorts
          [⟨"torque", "m", .scalar⟩, ⟨"ratio", "m", .scalar⟩]).1.ports := by
        decide +kernel
      exact absurd hmem (Std.ExtTreeMap.eq_empty_iff_forall_not_mem.mp hempty _)
  · simp at hsplit

theorem loadSolverPacks_independent_gears :
    Independent defaultStandardNamespaces [] .empty [bearingsPack, gearsPack] ∧
      LoadedIfMerged defaultStandardNamespaces [] .empty [bearingsPack, gearsPack] := by
  refine loadSolverPacks_independent _ _ .empty (disjointPacks_pair ?_ ?_) packsKeepApart_gears
  · intro id hid hid'
    rw [← Std.ExtTreeMap.mem_keys] at hid hid'
    rw [stagedAlone_bearings.1] at hid
    have hkeys : (stagedAlone .empty gearsPack).solvers.keys = ["gears.life"] := by decide +kernel
    rw [hkeys] at hid'
    simp_all
  · intro port hport hport'
    rw [← Std.ExtTreeMap.mem_keys] at hport hport'
    rw [stagedAlone_bearings.2] at hport
    have hkeys : (stagedAlone .empty gearsPack).ports.keys = ["ratio", "torque"] := by
      decide +kernel
    rw [hkeys] at hport'
    simp only [List.mem_cons, List.not_mem_nil, or_false] at hport hport'
    rcases hport with rfl | rfl <;> simp at hport'

/-- Alone the plain pack is loaded.  After a pack that declares ports its solver
is rejected. -/
theorem not_independent_plain :
    DisjointPacks .empty [bearingsPack, plainGearsPack] ∧
      ¬ Independent defaultStandardNamespaces [] .empty [bearingsPack, plainGearsPack] := by
  constructor
  · apply disjointPacks_pair
    · intro id hid hid'
      rw [← Std.ExtTreeMap.mem_keys] at hid hid'
      rw [stagedAlone_bearings.1] at hid
      have hkeys : (stagedAlone .empty plainGearsPack).solvers.keys = ["gears.life"] := by
        decide +kernel
      rw [hkeys] at hid'
      simp_all
    · intro port _ hport'
      rw [← Std.ExtTreeMap.mem_keys] at hport'
      have hkeys : (stagedAlone .empty plainGearsPack).ports.keys = [] := by decide +kernel
      rw [hkeys] at hport'
      cases hport'
  · intro h
    obtain ⟨st, hrun, st', alone, hstep, halone, hloaded, -⟩ :=
      h [bearingsPack] plainGearsPack [] (sortedByName_pair (by decide))
    have hboth : [bearingsPack, plainGearsPack].foldlM
        (loadPack defaultStandardNamespaces []) (.init .empty) = .ok st' := by
      rw [show [bearingsPack, plainGearsPack] = [bearingsPack] ++ [plainGearsPack] from rfl,
        List.foldlM_append, hrun]
      show [plainGearsPack].foldlM (loadPack defaultStandardNamespaces []) st = _
      rw [List.foldlM_cons, hstep]
      rfl
    -- one pack is reported in both runs, and none is added by the second one
    have hcount : ([bearingsPack, plainGearsPack].foldlM (loadPack defaultStandardNamespaces [])
        (.init (.empty : SolverRegistry ℚ Unit))).toOption.map (fun st => st.loaded.length)
        = some 1 := by decide +kernel
    have hfirst : ([bearingsPack].foldlM (loadPack defaultStandardNamespaces [])
        (.init (.empty : SolverRegistry ℚ Unit))).toOption.map (fun st => st.loaded.length)
        = some 1 := by decide +kernel
    have hsecond : (loadSolverPacks defaultStandardNamespaces []
        (.empty : SolverRegistry ℚ Unit) [plainGearsPack]).toOption.map
        (fun st => st.loaded.length) = some 1 := by decide +kernel
    rw [hboth] at hcount
    rw [hrun] at hfirst
    rw [halone] at hsecond
    have hlength := congrArg List.length hloaded
    rw [List.length_append] at hlength
    have h₁ : st'.loaded.length = 1 := Option.some.inj hcount
    have h₂ : st.loaded.length = 1 := Option.some.inj hfirst
    have h₃ : alone.loaded.length = 1 := Option.some.inj hsecond
    omega

end Packs

end Feldspar

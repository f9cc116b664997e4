/-
Feldspar/PackIsolation.lean

A skipped solver pack leaves no trace, and a loaded one adds what it staged.

`mergePack_cases` says what merging a staged pack can do; everything about a
whole composition follows from it by induction over the entry points
(`loadSolverPacks_isolated`).  What makes the rollback exact is that a replay
only ever adds ids that were free, to the registry and to the owner map
(`Replayed`), and that the new ports were free too.
-/
import Feldspar.Packs

set_option linter.unusedSectionVars false

namespace Feldspar

variable {K : Type} [Field K] [LinearOrder K] {Env : Type}

/-! ### Registries and their port tables -/

namespace SolverRegistry

theorem ext {reg reg' : SolverRegistry K Env} (hsolvers : reg.solvers = reg'.solvers)
    (hports : reg.ports = reg'.ports) (hfrozen : reg.frozen = reg'.frozen) : reg = reg' := by
  cases reg
  cases reg'
  cases hsolvers
  cases hports
  cases hfrozen
  rfl

/-- A registry that is built through its methods. -/
inductive Built : SolverRegistry K Env → Prop
  | empty : Built SolverRegistry.empty
  | declarePorts {reg : SolverRegistry K Env} (decls : List PortDecl) (h : Built reg) :
      Built (reg.declarePorts decls).1
  | register {reg reg' : SolverRegistry K Env} {info : SolverInfo K} {fn : SolveFn K Env}
      (h : Built reg) (hok : reg.register info fn = .ok reg') : Built reg'
  | freeze {reg : SolverRegistry K Env} (h : Built reg) : Built reg.freeze

/-- Every declaration is under its own name and of a known kind. -/
structure PortsConsistent (reg : SolverRegistry K Env) : Prop where
  name : ∀ (port : Port) (decl : PortDecl), reg.ports[port]? = some decl → decl.name = port
  known : ∀ (port : Port) (decl : PortDecl) (kind : String), reg.ports[port]? = some decl →
    decl.rank.payloadKind = some kind → kind ∈ payloadKinds

/-- What a successful registration does. -/
theorem register_ok {reg reg' : SolverRegistry K Env} {info : SolverInfo K} {fn : SolveFn K Env}
    (h : reg.register info fn = .ok reg') :
    info.solverId ∉ reg.solvers ∧ reg'.solvers = reg.solvers.insert info.solverId (info, fn) ∧
      reg'.ports = reg.ports ∧ reg'.frozen = reg.frozen := by
  unfold register at h
  split at h
  · cases h
  · rename_i hnone
    obtain rfl := Except.ok.inj h
    refine ⟨fun hmem => ?_, rfl, rfl, rfl⟩
    unfold rejection at hnone
    split_ifs at hnone

/-- A declaration is accepted where its kind is known and its name is free. -/
theorem declarePort_ok {ports ports' : PortMap PortDecl} {decl : PortDecl} :
    declarePort ports decl = .ok ports' ↔
      (∀ kind, decl.rank.payloadKind = some kind → kind ∈ payloadKinds) ∧
        ports[decl.name]? = none ∧ ports' = ports.insert decl.name decl := by
  have hkind : (decl.rank.payloadKind.filter fun kind => kind ∉ payloadKinds) = none ↔
      ∀ kind, decl.rank.payloadKind = some kind → kind ∈ payloadKinds := by
    rw [Option.filter_eq_none_iff]
    exact forall₂_congr fun kind _ => by simp
  rw [← hkind]
  unfold declarePort
  rcases hfilter : decl.rank.payloadKind.filter fun kind => kind ∉ payloadKinds with - | kind
  · rcases hport : ports[decl.name]? with - | existing
    · simp [eq_comm]
    · simp
  · simp

theorem declarePorts_frozen : ∀ (decls : List PortDecl) (reg : SolverRegistry K Env),
    (reg.declarePorts decls).1.frozen = reg.frozen
  | [], reg => rfl
  | decl :: decls, reg => by
      unfold declarePorts
      split
      · rfl
      · split
        · rfl
        · exact declarePorts_frozen decls _

/-- A declaration adds to the port table. -/
theorem declarePorts_ports : ∀ (decls : List PortDecl) (reg : SolverRegistry K Env)
    {port : Port} {decl : PortDecl}, reg.ports[port]? = some decl →
      (reg.declarePorts decls).1.ports[port]? = some decl
  | [], reg, port, decl, h => h
  | decl' :: decls, reg, port, decl, h => by
      unfold declarePorts
      split
      · exact h
      · split
        · exact h
        · rename_i ports hok
          obtain ⟨-, hfree, rfl⟩ := declarePort_ok.mp hok
          apply declarePorts_ports decls
          show (reg.ports.insert decl'.name decl')[port]? = some decl
          rw [OrdMap.getElem?_insert_eq, if_neg]
          · exact h
          · rintro rfl
            rw [hfree] at h
            cases h

theorem PortsConsistent.declarePorts : ∀ (decls : List PortDecl) {reg : SolverRegistry K Env},
    reg.PortsConsistent → (reg.declarePorts decls).1.PortsConsistent
  | [], reg, h => h
  | decl :: decls, reg, h => by
      unfold SolverRegistry.declarePorts
      split
      · exact h
      · split
        · exact h
        · rename_i ports hok
          obtain ⟨hknown, -, rfl⟩ := declarePort_ok.mp hok
          apply PortsConsistent.declarePorts decls
          refine ⟨fun port decl' hget => ?_, fun port decl' kind hget hkind => ?_⟩ <;>
            (simp only [OrdMap.getElem?_insert_eq] at hget; split_ifs at hget with heq)
          · exact Option.some.inj hget ▸ heq
          · exact h.name port decl' hget
          · exact hknown kind (Option.some.inj hget ▸ hkind)
          · exact h.known port decl' kind hget hkind

theorem PortsConsistent.of_ports_eq {reg reg' : SolverRegistry K Env} (h : reg.PortsConsistent)
    (hports : reg'.ports = reg.ports) : reg'.PortsConsistent :=
  ⟨fun port decl hget => h.name port decl (hports ▸ hget),
    fun port decl kind hget => h.known port decl kind (hports ▸ hget)⟩

theorem Built.portsConsistent {reg : SolverRegistry K Env} (h : reg.Built) :
    reg.PortsConsistent := by
  induction h with
  | empty =>
      refine ⟨fun port decl hget => ?_, fun port decl kind hget => ?_⟩ <;>
        simp [SolverRegistry.empty] at hget
  | declarePorts decls _ ih => exact ih.declarePorts decls
  | register _ hok ih => exact ih.of_ports_eq (register_ok hok).2.2.1
  | freeze _ ih => exact ih.of_ports_eq rfl

/-- The port table with some declarations added. -/
def withDecls (ports : PortMap PortDecl) (decls : List PortDecl) : PortMap PortDecl :=
  decls.foldl (fun ports decl => ports.insert decl.name decl) ports

/-- Declarations of free names are all accepted. -/
theorem declarePorts_fresh : ∀ (decls : List PortDecl) (reg : SolverRegistry K Env),
    reg.frozen = false → (decls.map PortDecl.name).Nodup →
    (∀ decl ∈ decls, reg.ports[decl.name]? = none ∧
      ∀ kind, decl.rank.payloadKind = some kind → kind ∈ payloadKinds) →
    reg.declarePorts decls = ({ reg with ports := withDecls reg.ports decls }, .ok ())
  | [], reg, hfrozen, _, _ => by
      unfold declarePorts
      rw [if_neg (by rw [hfrozen]; exact Bool.false_ne_true)]
      rfl
  | decl :: decls, reg, hfrozen, hnodup, hfresh => by
      obtain ⟨hfree, hknown⟩ := hfresh decl List.mem_cons_self
      obtain ⟨hnotin, hnodup'⟩ := List.nodup_cons.mp hnodup
      have hok : declarePort reg.ports decl = .ok (reg.ports.insert decl.name decl) :=
        declarePort_ok.mpr ⟨hknown, hfree, rfl⟩
      unfold declarePorts
      rw [if_neg (by rw [hfrozen]; exact Bool.false_ne_true), hok]
      refine declarePorts_fresh decls { reg with ports := reg.ports.insert decl.name decl } hfrozen
        hnodup' fun decl' hdecl' => ⟨?_, (hfresh decl' (List.mem_cons_of_mem _ hdecl')).2⟩
      have hne : decl.name ≠ decl'.name := fun heq => hnotin (heq ▸ List.mem_map_of_mem hdecl')
      show (reg.ports.insert decl.name decl)[decl'.name]? = none
      rw [OrdMap.getElem?_insert_eq, if_neg hne]
      exact (hfresh decl' (List.mem_cons_of_mem _ hdecl')).1

theorem getElem?_withDecls {decls : List PortDecl} {port : Port} :
    ∀ {ports : PortMap PortDecl}, (decls.map PortDecl.name).Nodup →
      (withDecls ports decls)[port]?
        = (decls.find? fun decl => decl.name = port).or ports[port]? := by
  induction decls with
  | nil => exact fun _ => rfl
  | cons decl decls ih =>
      intro ports hnodup
      obtain ⟨hnotin, hnodup'⟩ := List.nodup_cons.mp hnodup
      show (withDecls (ports.insert decl.name decl) decls)[port]? = _
      rw [ih hnodup', OrdMap.getElem?_insert_eq, List.find?_cons]
      by_cases heq : decl.name = port
      · have hnone : (decls.find? fun decl => decl.name = port) = none := by
          apply List.find?_eq_none.mpr
          intro decl' hdecl' hname
          exact hnotin (heq ▸ of_decide_eq_true hname ▸ List.mem_map_of_mem hdecl')
        rw [hnone, if_pos heq, decide_eq_true heq]
        rfl
      · rw [if_neg heq, decide_eq_false heq]

end SolverRegistry

namespace Packs

open SolverRegistry (PortsConsistent withDecls)

/-! ### The staging registry -/

/-- What a callable keeps of the registry it was handed. -/
structure Extends (reg reg' : SolverRegistry K Env) : Prop where
  consistent : reg.PortsConsistent → reg'.PortsConsistent
  ports : ∀ (port : Port) (decl : PortDecl), reg.ports[port]? = some decl →
    reg'.ports[port]? = some decl

theorem Extends.trans {reg reg' reg'' : SolverRegistry K Env} (h : Extends reg reg')
    (h' : Extends reg' reg'') : Extends reg reg'' :=
  ⟨fun hc => h'.consistent (h.consistent hc), fun port decl hget => h'.ports port decl
    (h.ports port decl hget)⟩

theorem extends_of_ports_eq {reg reg' : SolverRegistry K Env} (h : reg'.ports = reg.ports) :
    Extends reg reg' :=
  ⟨fun hc => hc.of_ports_eq h, fun port decl hget => by rw [h]; exact hget⟩

theorem extends_declarePorts (decls : List PortDecl) (reg : SolverRegistry K Env) :
    Extends reg (reg.declarePorts decls).1 :=
  ⟨fun hc => hc.declarePorts decls, fun _ _ hget => SolverRegistry.declarePorts_ports decls reg hget⟩

theorem extends_registerCall (reg : SolverRegistry K Env) (info : SolverInfo K)
    (fn : SolveFn K Env) : Extends reg (reg.registerCall info fn).1 := by
  unfold SolverRegistry.registerCall
  rcases h : reg.register info fn with e | reg'
  · exact extends_of_ports_eq rfl
  · exact extends_of_ports_eq (SolverRegistry.register_ok h).2.2.1

/-- A callable only adds ports. -/
theorem extends_run (program : RegisterProgram K Env) :
    ∀ reg, Extends reg (program.run reg).registry := by
  induction program with
  | finish => exact fun reg => extends_of_ports_eq rfl
  | raise message => exact fun reg => extends_of_ports_eq rfl
  | declarePorts decls next ih =>
      exact fun reg => (extends_declarePorts decls reg).trans (ih _ _)
  | register info fn next ih =>
      exact fun reg => (extends_registerCall reg info fn).trans (ih _ _)
  | freeze next ih =>
      intro reg
      have hfreeze : Extends reg reg.freeze := extends_of_ports_eq rfl
      exact hfreeze.trans (ih _)
  | readSolvers next ih => exact fun reg => ih _ _ reg
  | readPorts next ih => exact fun reg => ih _ reg

/-- **Seeding never fails** on a consistent port table, and copies it. -/
theorem seedStaging_ok {reg : SolverRegistry K Env} (h : reg.PortsConsistent) :
    ∃ staging, seedStaging reg = .ok staging ∧ staging.ports = reg.ports ∧ staging.solvers = ∅ ∧
      staging.frozen = false := by
  have hget : ∀ {port : Port} {decl : PortDecl}, (port, decl) ∈ reg.ports.toList ↔
      reg.ports[port]? = some decl := fun {port decl} =>
    Std.ExtTreeMap.mem_toList_iff_getElem?_eq_some
  -- the table is keyed by the names, so no declaration of it collides with another
  have hnames : (OrdMap.vals reg.ports).map PortDecl.name = reg.ports.toList.map Prod.fst := by
    rw [OrdMap.vals, List.map_map]
    refine List.map_congr_left fun e he => ?_
    exact h.name e.1 e.2 (hget.mp he)
  have hnodup : ((OrdMap.vals reg.ports).map PortDecl.name).Nodup :=
    hnames ▸ OrdMap.nodup_keys_toList reg.ports
  have hdeclare := SolverRegistry.declarePorts_fresh (OrdMap.vals reg.ports)
    (SolverRegistry.empty : SolverRegistry K Env) rfl hnodup fun decl hdecl => by
      obtain ⟨port, hport⟩ := OrdMap.mem_vals.mp hdecl
      exact ⟨by simp [SolverRegistry.empty], fun kind hkind => h.known port decl kind hport hkind⟩
  unfold seedStaging
  rw [hdeclare]
  refine ⟨_, rfl, ?_, rfl, rfl⟩
  apply Std.ExtTreeMap.ext_getElem?
  intro port
  show (withDecls ∅ (OrdMap.vals reg.ports))[port]? = _
  rw [SolverRegistry.getElem?_withDecls hnodup]
  rcases hport : reg.ports[port]? with - | decl
  · have hnone : ((OrdMap.vals reg.ports).find? fun decl => decl.name = port) = none := by
      apply List.find?_eq_none.mpr
      intro decl hdecl hname
      obtain ⟨port', hport'⟩ := OrdMap.mem_vals.mp hdecl
      rw [← of_decide_eq_true hname, h.name port' decl hport', hport'] at hport
      cases hport
    rw [hnone]
    exact Std.ExtTreeMap.getElem?_empty
  · obtain ⟨decl', hfind⟩ : ∃ decl', ((OrdMap.vals reg.ports).find? fun decl => decl.name = port)
        = some decl' := by
      apply Option.isSome_iff_exists.mp
      rw [List.find?_isSome]
      exact ⟨decl, OrdMap.mem_vals.mpr ⟨port, hport⟩, decide_eq_true (h.name port decl hport)⟩
    obtain ⟨port', hport'⟩ := OrdMap.mem_vals.mp (List.mem_of_find?_eq_some hfind)
    have hname : decl'.name = port := by simpa using List.find?_some hfind
    rw [h.name port' decl' hport'] at hname
    rw [hfind]
    rw [hname, hport] at hport'
    exact hport'.symm ▸ rfl

/-! ### Replaying and rolling back -/

/-- What a replay of `staged` did to the state: the ids it added were free, and
nothing else changed. -/
structure Replayed (packName : String) (done : List (SolverInfo K × SolveFn K Env))
    (st st' : ReplayState K Env) : Prop where
  ports : st'.registry.ports = st.registry.ports
  frozen : st'.registry.frozen = st.registry.frozen
  registered : st'.registeredThisPack
    = st.registeredThisPack ++ done.map fun e => e.1.solverId
  fresh : ∀ e ∈ done, e.1.solverId ∉ st.registry.solvers
  solvers : ∀ (id : SolverId) (e : SolverInfo K × SolveFn K Env),
    st'.registry.solvers[id]? = some e ↔
      st.registry.solvers[id]? = some e ∨ e ∈ done ∧ e.1.solverId = id
  owners : ∀ id : SolverId, st'.ownerOf[id]? =
    if ∃ e ∈ done, e.1.solverId = id then some packName else st.ownerOf[id]?

theorem Replayed.refl (packName : String) (st : ReplayState K Env) :
    Replayed packName [] st st where
  ports := rfl
  frozen := rfl
  registered := (List.append_nil _).symm
  fresh := fun e he => absurd he List.not_mem_nil
  solvers := fun id e => by simp
  owners := fun id => by simp

/-- One more registration at the front. -/
theorem Replayed.cons {packName : String} {done : List (SolverInfo K × SolveFn K Env)}
    {st st' : ReplayState K Env} {info : SolverInfo K} {fn : SolveFn K Env}
    {reg : SolverRegistry K Env} (hok : st.registry.register info fn = .ok reg)
    (h : Replayed packName done ⟨reg, st.ownerOf.insert info.solverId packName,
      st.registeredThisPack ++ [info.solverId]⟩ st') :
    Replayed packName ((info, fn) :: done) st st' := by
  obtain ⟨hfree, hsolvers, hports, hfrozen⟩ := SolverRegistry.register_ok hok
  have hget : ∀ id : SolverId, reg.solvers[id]?
      = if info.solverId = id then some (info, fn) else st.registry.solvers[id]? := fun id => by
    rw [hsolvers, OrdMap.getElem?_insert_eq]
  refine ⟨h.ports.trans hports, h.frozen.trans hfrozen, ?_, fun e he => ?_, fun id e => ?_,
    fun id => ?_⟩
  · rw [h.registered, List.append_assoc]
    rfl
  · rcases List.mem_cons.mp he with rfl | he
    · exact hfree
    · have hfree' : e.1.solverId ∉ reg.solvers := h.fresh e he
      rw [hsolvers, Std.ExtTreeMap.mem_insert] at hfree'
      exact fun hmem => hfree' (Or.inr hmem)
  · rw [h.solvers id e]
    show reg.solvers[id]? = some e ∨ _ ↔ _
    rw [hget, List.mem_cons]
    constructor
    · rintro (he | ⟨he, hid⟩)
      · split_ifs at he with heq
        · exact Or.inr ⟨Or.inl (Option.some.inj he).symm, Option.some.inj he ▸ heq⟩
        · exact Or.inl he
      · exact Or.inr ⟨Or.inr he, hid⟩
    · rintro (he | ⟨rfl | he, hid⟩)
      · have hne : info.solverId ≠ id := by
          rintro rfl
          exact hfree (OrdMap.mem_iff_exists.mpr ⟨e, he⟩)
        exact Or.inl (by rw [if_neg hne]; exact he)
      · exact Or.inl (if_pos hid)
      · exact Or.inr ⟨he, hid⟩
  · rw [h.owners id]
    show (if _ then _ else (st.ownerOf.insert info.solverId packName)[id]?) = _
    rw [OrdMap.getElem?_insert_eq]
    by_cases hdone : ∃ e ∈ done, e.1.solverId = id
    · obtain ⟨e, he, hid⟩ := hdone
      rw [if_pos ⟨e, he, hid⟩, if_pos ⟨e, List.mem_cons_of_mem _ he, hid⟩]
    · rw [if_neg hdone]
      by_cases heq : info.solverId = id
      · rw [if_pos heq, if_pos ⟨(info, fn), List.mem_cons_self, heq⟩]
      · rw [if_neg heq, if_neg]
        rintro ⟨e, he, hid⟩
        rcases List.mem_cons.mp he with rfl | he
        · exact heq hid
        · exact hdone ⟨e, he, hid⟩

/-- A replay goes through a part of the list, all of it if there is no error. -/
theorem replay_replayed (packName : String) :
    ∀ (staged : List (SolverInfo K × SolveFn K Env)) (st : ReplayState K Env),
      ∃ done rest, staged = done ++ rest ∧ Replayed packName done st (replay packName staged st).1 ∧
        ((replay packName staged st).2 = none → rest = [])
  | [], st => ⟨[], [], rfl, .refl packName st, fun _ => rfl⟩
  | (info, fn) :: staged, st => by
      unfold replay
      rcases hok : st.registry.register info fn with e | reg
      · exact ⟨[], (info, fn) :: staged, rfl, .refl packName st, fun h => by cases h⟩
      · obtain ⟨done, rest, rfl, hreplayed, hnone⟩ := replay_replayed packName staged
          ⟨reg, st.ownerOf.insert info.solverId packName, st.registeredThisPack ++ [info.solverId]⟩
        exact ⟨(info, fn) :: done, rest, rfl, hreplayed.cons hok, hnone⟩

theorem foldl_rollbackRegistration : ∀ (ids : List SolverId) (reg : SolverRegistry K Env),
    (ids.foldl SolverRegistry.rollbackRegistration reg).ports = reg.ports ∧
      (ids.foldl SolverRegistry.rollbackRegistration reg).frozen = reg.frozen ∧
      ∀ id : SolverId, (ids.foldl SolverRegistry.rollbackRegistration reg).solvers[id]?
        = if id ∈ ids then none else reg.solvers[id]?
  | [], reg => ⟨rfl, rfl, fun id => by simp⟩
  | id' :: ids, reg => by
      obtain ⟨hports, hfrozen, hsolvers⟩ :=
        foldl_rollbackRegistration ids (reg.rollbackRegistration id')
      refine ⟨hports, hfrozen, fun id => ?_⟩
      show (ids.foldl _ (reg.rollbackRegistration id')).solvers[id]? = _
      rw [hsolvers]
      show (if id ∈ ids then none else (reg.solvers.erase id')[id]?) = _
      rw [Std.ExtTreeMap.getElem?_erase]
      by_cases hid : id ∈ ids
      · rw [if_pos hid, if_pos (List.mem_cons_of_mem _ hid)]
      · by_cases heq : id' = id
        · simp [heq]
        · simp [hid, heq, Ne.symm heq]

theorem foldl_rollbackPortDecl : ∀ (decls : List PortDecl) (reg : SolverRegistry K Env),
    (decls.foldl (fun reg decl => reg.rollbackPortDecl decl.name) reg).solvers = reg.solvers ∧
      (decls.foldl (fun reg decl => reg.rollbackPortDecl decl.name) reg).frozen = reg.frozen ∧
      ∀ port : Port, (decls.foldl (fun reg decl => reg.rollbackPortDecl decl.name) reg).ports[port]?
        = if ∃ decl ∈ decls, decl.name = port then none else reg.ports[port]?
  | [], reg => ⟨rfl, rfl, fun port => by simp⟩
  | decl :: decls, reg => by
      obtain ⟨hsolvers, hfrozen, hports⟩ :=
        foldl_rollbackPortDecl decls (reg.rollbackPortDecl decl.name)
      refine ⟨hsolvers, hfrozen, fun port => ?_⟩
      show (decls.foldl _ (reg.rollbackPortDecl decl.name)).ports[port]? = _
      rw [hports]
      show (if _ then none else (reg.ports.erase decl.name)[port]?) = _
      rw [Std.ExtTreeMap.getElem?_erase]
      by_cases heq : decl.name = port
      · simp [heq]
      · simp [heq]

theorem getElem?_foldl_erase : ∀ (ids : List SolverId) (ownerOf : OwnerMap) (id : SolverId),
    (ids.foldl (fun ownerOf solverId => ownerOf.erase solverId) ownerOf)[id]?
      = if id ∈ ids then none else ownerOf[id]?
  | [], ownerOf, id => by simp
  | id' :: ids, ownerOf, id => by
      show (ids.foldl _ (ownerOf.erase id'))[id]? = _
      rw [getElem?_foldl_erase ids, Std.ExtTreeMap.getElem?_erase]
      by_cases hid : id ∈ ids
      · rw [if_pos hid, if_pos (List.mem_cons_of_mem _ hid)]
      · by_cases heq : id' = id
        · simp [heq]
        · simp [hid, heq, Ne.symm heq]

/-! ### Merging -/

/-- A registry with the owner map that belongs to it. -/
structure Consistent (reg : SolverRegistry K Env) (ownerOf : OwnerMap) : Prop where
  ports : reg.PortsConsistent
  owners : ∀ id : SolverId, id ∈ ownerOf ↔ id ∈ reg.solvers

/-- A staging registry that was seeded with the ports of `reg`. -/
structure StagedOver (reg staging : SolverRegistry K Env) : Prop where
  consistent : staging.PortsConsistent
  ports : ∀ (port : Port) (decl : PortDecl), reg.ports[port]? = some decl →
    staging.ports[port]? = some decl

/-- A loaded pack: what it staged was free and is now in the registry, under its
name, and nothing else changed. -/
structure Merged (reg : SolverRegistry K Env) (ownerOf : OwnerMap) (packName : String)
    (staging reg' : SolverRegistry K Env) (ownerOf' : OwnerMap) : Prop where
  fresh : ∀ id : SolverId, id ∈ staging.solvers → id ∉ reg.solvers
  solvers : ∀ (id : SolverId) (e : SolverInfo K × SolveFn K Env),
    reg'.solvers[id]? = some e ↔ reg.solvers[id]? = some e ∨ staging.solvers[id]? = some e
  ports : reg'.ports = staging.ports
  frozen : reg'.frozen = reg.frozen
  owners : ∀ id : SolverId, ownerOf'[id]?
    = if id ∈ staging.solvers then some packName else ownerOf[id]?

section Merge

variable {reg staging : SolverRegistry K Env} {ownerOf : OwnerMap}

theorem mem_newPorts {decl : PortDecl} :
    decl ∈ newPorts reg staging ↔ ∃ port : Port, staging.ports[port]? = some decl ∧
      port ∉ reg.ports := by
  unfold newPorts
  simp only [List.mem_map, List.mem_filter, decide_eq_true_eq, Prod.exists,
    Std.ExtTreeMap.mem_toList_iff_getElem?_eq_some]
  constructor
  · rintro ⟨port, decl', ⟨hget, hnew⟩, rfl⟩
    exact ⟨port, hget, hnew⟩
  · rintro ⟨port, hget, hnew⟩
    exact ⟨port, decl, ⟨hget, hnew⟩, rfl⟩

/-- The names of the new ports are the staged ones that are not in the table. -/
theorem exists_newPorts_name (h : StagedOver reg staging) {port : Port} :
    (∃ decl ∈ newPorts reg staging, decl.name = port) ↔
      port ∈ staging.ports ∧ port ∉ reg.ports := by
  constructor
  · rintro ⟨decl, hdecl, rfl⟩
    obtain ⟨port, hget, hnew⟩ := mem_newPorts.mp hdecl
    rw [h.consistent.name port decl hget]
    exact ⟨OrdMap.mem_iff_exists.mpr ⟨decl, hget⟩, hnew⟩
  · rintro ⟨hmem, hnew⟩
    obtain ⟨decl, hget⟩ := OrdMap.mem_iff_exists.mp hmem
    exact ⟨decl, mem_newPorts.mpr ⟨port, hget, hnew⟩, h.consistent.name port decl hget⟩

theorem nodup_newPorts (h : StagedOver reg staging) :
    ((newPorts reg staging).map PortDecl.name).Nodup := by
  have hnames : (newPorts reg staging).map PortDecl.name
      = (staging.ports.toList.filter fun e => e.1 ∉ reg.ports).map Prod.fst := by
    unfold newPorts
    rw [List.map_map]
    refine List.map_congr_left fun e he => ?_
    exact h.consistent.name e.1 e.2
      (Std.ExtTreeMap.mem_toList_iff_getElem?_eq_some.mp (List.mem_filter.mp he).1)
  rw [hnames]
  exact (OrdMap.nodup_keys_toList staging.ports).sublist (List.filter_sublist.map _)

/-- With the new ports the table is the staged one. -/
theorem withDecls_newPorts (h : StagedOver reg staging) :
    withDecls reg.ports (newPorts reg staging) = staging.ports := by
  apply Std.ExtTreeMap.ext_getElem?
  intro port
  rw [SolverRegistry.getElem?_withDecls (nodup_newPorts h)]
  rcases hfind : (newPorts reg staging).find? fun decl => decl.name = port with - | decl
  · have hnot : ¬ (port ∈ staging.ports ∧ port ∉ reg.ports) := fun hnew => by
      obtain ⟨decl, hdecl, hname⟩ := (exists_newPorts_name h).mpr hnew
      exact absurd (decide_eq_true hname) (List.find?_eq_none.mp hfind decl hdecl)
    rw [hfind]
    show reg.ports[port]? = _
    rcases hreg : reg.ports[port]? with - | decl
    · have hnotreg : port ∉ reg.ports := fun hmem => by
        obtain ⟨decl, hget⟩ := OrdMap.mem_iff_exists.mp hmem
        rw [hreg] at hget
        cases hget
      exact (Std.ExtTreeMap.getElem?_eq_none fun hmem => hnot ⟨hmem, hnotreg⟩).symm
    · exact (h.ports port decl hreg).symm
  · obtain ⟨port', hget, -⟩ := mem_newPorts.mp (List.mem_of_find?_eq_some hfind)
    have hname : decl.name = port := by simpa using List.find?_some hfind
    rw [h.consistent.name port' decl hget] at hname
    rw [hfind, ← hname, hget]
    rfl

/-- Declaring the new ports gives the staged table, unless there are some and
the registry is frozen. -/
theorem declareNew_cases (h : StagedOver reg staging) :
    (newPorts reg staging ≠ [] ∧ reg.frozen = true ∧
        declareNew reg (newPorts reg staging) = (reg, .error .frozen)) ∨
      (newPorts reg staging = [] ∨ reg.frozen = false) ∧
      ∃ reg', declareNew reg (newPorts reg staging) = (reg', .ok ()) ∧
        reg'.solvers = reg.solvers ∧ reg'.ports = staging.ports ∧ reg'.frozen = reg.frozen := by
  have htable := withDecls_newPorts h
  unfold declareNew
  rcases hdecls : newPorts reg staging with - | ⟨decl, decls⟩
  · rw [hdecls] at htable
    exact Or.inr ⟨Or.inl rfl, reg, rfl, rfl, htable, rfl⟩
  · rw [if_neg (by simp)]
    rcases hfrozen : reg.frozen with - | -
    · have hfresh := SolverRegistry.declarePorts_fresh (newPorts reg staging) reg hfrozen
        (nodup_newPorts h) fun decl hdecl => by
          obtain ⟨port, hget, hnew⟩ := mem_newPorts.mp hdecl
          rw [h.consistent.name port decl hget]
          exact ⟨Std.ExtTreeMap.getElem?_eq_none hnew,
            fun kind hkind => h.consistent.known port decl kind hget hkind⟩
      rw [← hdecls, hfresh]
      exact Or.inr ⟨Or.inr rfl, _, rfl, rfl, htable, hfrozen⟩
    · refine Or.inl ⟨by simp, rfl, ?_⟩
      unfold SolverRegistry.declarePorts
      rw [if_pos hfrozen]

/-- **A rollback restores** the registry and the owner map. -/
theorem rollback_replayed (hcons : Consistent reg ownerOf) (hstaged : StagedOver reg staging)
    {reg' : SolverRegistry K Env} (hsolvers : reg'.solvers = reg.solvers)
    (hports : reg'.ports = staging.ports) (hfrozen : reg'.frozen = reg.frozen)
    {packName : String} {done : List (SolverInfo K × SolveFn K Env)} {st : ReplayState K Env}
    (h : Replayed packName done ⟨reg', ownerOf, []⟩ st) :
    rollback (newPorts reg staging) st = (reg, ownerOf) := by
  have hids : st.registeredThisPack = done.map fun e => e.1.solverId := h.registered
  have hdone : ∀ {id : SolverId}, id ∈ st.registeredThisPack ↔ ∃ e ∈ done, e.1.solverId = id := by
    intro id
    rw [hids, List.mem_map]
  -- what the replay registered was new, so to erase it takes nothing else away
  have hfree : ∀ {id : SolverId}, id ∈ st.registeredThisPack → id ∉ reg.solvers := by
    intro id hid
    obtain ⟨e, he, rfl⟩ := hdone.mp hid
    exact hsolvers ▸ h.fresh e he
  obtain ⟨hports₁, hfrozen₁, hsolvers₁⟩ :=
    foldl_rollbackRegistration st.registeredThisPack st.registry
  obtain ⟨hsolvers₂, hfrozen₂, hports₂⟩ := foldl_rollbackPortDecl (newPorts reg staging)
    (st.registeredThisPack.foldl SolverRegistry.rollbackRegistration st.registry)
  refine Prod.ext (SolverRegistry.ext ?_ ?_ ?_) ?_
  · apply Std.ExtTreeMap.ext_getElem?
    intro id
    show (SolverRegistry.solvers (List.foldl _ (List.foldl _ _ _) _))[id]? = _
    rw [hsolvers₂, hsolvers₁]
    split_ifs with hid
    · exact (Std.ExtTreeMap.getElem?_eq_none (hfree hid)).symm
    · apply Option.ext
      intro e
      rw [h.solvers id e]
      show reg'.solvers[id]? = some e ∨ _ ↔ _
      rw [hsolvers]
      exact ⟨fun he => he.resolve_right fun he => hid (hdone.mpr ⟨e, he⟩), Or.inl⟩
  · apply Std.ExtTreeMap.ext_getElem?
    intro port
    show (SolverRegistry.ports (List.foldl _ (List.foldl _ _ _) _))[port]? = _
    rw [hports₂, hports₁, h.ports, hports]
    split_ifs with hnew
    · exact (Std.ExtTreeMap.getElem?_eq_none ((exists_newPorts_name hstaged).mp hnew).2).symm
    · rw [exists_newPorts_name hstaged] at hnew
      rcases hreg : reg.ports[port]? with - | decl
      · refine Std.ExtTreeMap.getElem?_eq_none fun hmem => hnew ⟨hmem, fun hmem' => ?_⟩
        obtain ⟨decl, hget⟩ := OrdMap.mem_iff_exists.mp hmem'
        rw [hreg] at hget
        cases hget
      · exact hstaged.ports port decl hreg
  · exact hfrozen₂.trans (hfrozen₁.trans (h.frozen.trans hfrozen))
  · apply Std.ExtTreeMap.ext_getElem?
    intro id
    show (List.foldl _ _ _)[id]? = _
    rw [getElem?_foldl_erase]
    split_ifs with hid
    · have hnot : id ∉ ownerOf := fun hmem => hfree hid ((hcons.owners id).mp hmem)
      exact (Std.ExtTreeMap.getElem?_eq_none hnot).symm
    · rw [h.owners id, if_neg fun hmem => hid (hdone.mpr hmem)]

variable (standard reviewed : List String)

/-- Every staged solver is in a namespace that the check lets through. -/
def Accepted (packName : String) (staging : SolverRegistry K Env) : Prop :=
  ∀ e ∈ staging.entries, namespaceViolation packName e.1.ns standard reviewed = none

theorem namespaceViolation_of_packViolation {ownerOf : OwnerMap} {packName : String}
    {info : SolverInfo K} (h : packViolation standard reviewed ownerOf packName info = none) :
    namespaceViolation packName info.ns standard reviewed = none := by
  unfold packViolation at h
  split at h
  · cases h
  · split at h
    · cases h
    · assumption

/-- **What merging a pack can do**: skip it and leave everything as it was, or
load it. -/
theorem mergePack_cases (hcons : Consistent reg ownerOf) (hstaged : StagedOver reg staging)
    (packName version : String) :
    (∃ error, mergePack standard reviewed reg ownerOf packName version staging
        = (reg, ownerOf, .skipped error)) ∨
      ∃ reg' ownerOf', mergePack standard reviewed reg ownerOf packName version staging
          = (reg', ownerOf', .loaded ⟨packName, version⟩) ∧
        Merged reg ownerOf packName staging reg' ownerOf' ∧
        Accepted standard reviewed packName staging := by
  unfold mergePack
  rcases hviolation : staging.entries.findSome? fun e =>
      packViolation standard reviewed ownerOf packName e.1 with - | violation
  swap
  · rw [hviolation]
    exact Or.inl ⟨violation, rfl⟩
  rw [hviolation]
  rcases declareNew_cases hstaged with
    ⟨-, -, hdeclare⟩ | ⟨-, reg', hdeclare, hsolvers, hports, hfrozen⟩
  · simp only [hdeclare]
    exact Or.inl ⟨_, rfl⟩
  · simp only [hdeclare]
    obtain ⟨done, rest, hsplit, hreplayed, hnone⟩ :=
      replay_replayed packName staging.entries ⟨reg', ownerOf, []⟩
    rcases hreplay : replay packName staging.entries ⟨reg', ownerOf, []⟩ with ⟨st, - | error⟩ <;>
      rw [hreplay] at hreplayed hnone
    · -- every staged solver was registered
      obtain rfl := hnone rfl
      rw [List.append_nil] at hsplit
      have hmem : ∀ {id : SolverId} {e : SolverInfo K × SolveFn K Env},
          e ∈ done ∧ e.1.solverId = id ↔ staging.solvers[id]? = some e := by
        intro id e
        rw [← hsplit, SolverRegistry.mem_entries]
        constructor
        · rintro ⟨hget, rfl⟩
          exact hget
        · intro hget
          have hid := staging.key_eq id e.1 e.2 hget
          exact ⟨hid.symm ▸ hget, hid⟩
      refine Or.inr ⟨_, _, rfl, ⟨?_, fun id e => ?_, hreplayed.ports.trans hports,
        hreplayed.frozen.trans hfrozen, fun id => ?_⟩, fun e he =>
          namespaceViolation_of_packViolation standard reviewed
            (List.findSome?_eq_none_iff.mp hviolation e he)⟩
      · intro id hid
        obtain ⟨e, hget⟩ := OrdMap.mem_iff_exists.mp hid
        obtain ⟨he, rfl⟩ := hmem.mpr hget
        exact hsolvers ▸ hreplayed.fresh e he
      · rw [hreplayed.solvers id e, hmem]
        show reg'.solvers[id]? = some e ∨ _ ↔ _
        rw [hsolvers]
      · rw [hreplayed.owners id]
        have hiff : (∃ e ∈ done, e.1.solverId = id) ↔ id ∈ staging.solvers := by
          rw [OrdMap.mem_iff_exists]
          exact exists_congr fun e => hmem
        simp only [hiff]
    · refine Or.inl ⟨error, ?_⟩
      simp only [rollback_replayed hcons hstaged hsolvers hports hfrozen hreplayed]

end Merge

/-! ### Whole compositions -/

/-- A loaded pack and its staging registry. -/
structure Contribution (K Env : Type) [Field K] [LinearOrder K] where
  info : PackInfo
  staging : SolverRegistry K Env

/-- The callable of the entry point staged this over `reg`, without raising. -/
def StagedBy (reg : SolverRegistry K Env) (ep : SolverPackEntryPoint K Env)
    (c : Contribution K Env) : Prop :=
  c.info = ⟨ep.name, packVersion ep⟩ ∧ ∃ program seeded, ep.load = .callable program ∧
    seedStaging reg = .ok seeded ∧ (program.run seeded).outcome = .ok () ∧
    c.staging = (program.run seeded).registry

/-- The state holds the base and what the loaded packs staged, each id under one
owner. -/
structure Composed (base : SolverRegistry K Env) (st : LoadState K Env)
    (contributions : List (Contribution K Env)) : Prop where
  consistent : Consistent st.registry st.ownerOf
  loaded : st.loaded = contributions.map Contribution.info
  solvers : ∀ (id : SolverId) (e : SolverInfo K × SolveFn K Env),
    st.registry.solvers[id]? = some e ↔ base.solvers[id]? = some e ∨
      ∃ c ∈ contributions, c.staging.solvers[id]? = some e
  ports : ∀ (port : Port) (decl : PortDecl), st.registry.ports[port]? = some decl ↔
    base.ports[port]? = some decl ∨ ∃ c ∈ contributions, c.staging.ports[port]? = some decl
  owners : ∀ (id : SolverId) (owner : String), st.ownerOf[id]? = some owner ↔
    owner = "<builtin>" ∧ id ∈ base.solvers ∨
      ∃ c ∈ contributions, owner = c.info.name ∧ id ∈ c.staging.solvers
  fresh : ∀ c ∈ contributions, ∀ id : SolverId, id ∈ c.staging.solvers → id ∉ base.solvers
  disjoint : contributions.Pairwise fun c c' =>
    ∀ id : SolverId, id ∈ c.staging.solvers → id ∉ c'.staging.solvers

theorem Composed.init {base : SolverRegistry K Env} (h : base.PortsConsistent) :
    Composed base (.init base) [] where
  consistent := ⟨h, fun id => by simp [LoadState.init]⟩
  loaded := rfl
  solvers id e := by simp [LoadState.init]
  ports port decl := by simp [LoadState.init]
  owners id owner := by
    show (base.solvers.map fun _ _ => "<builtin>")[id]? = some owner ↔ _
    rw [Std.ExtTreeMap.getElem?_map, OrdMap.mem_iff_exists]
    simp only [Option.map_eq_some_iff, List.not_mem_nil, false_and, exists_false, or_false]
    constructor
    · rintro ⟨e, he, rfl⟩
      exact ⟨rfl, e, he⟩
    · rintro ⟨rfl, e, he⟩
      exact ⟨e, he, rfl⟩
  fresh c hc := absurd hc List.not_mem_nil
  disjoint := List.Pairwise.nil

/-- A merged pack keeps the owner map and the port table consistent. -/
theorem Merged.consistent {reg staging reg' : SolverRegistry K Env} {ownerOf ownerOf' : OwnerMap}
    {packName : String} (h : Merged reg ownerOf packName staging reg' ownerOf')
    (hcons : Consistent reg ownerOf) (hstaged : StagedOver reg staging) :
    Consistent reg' ownerOf' := by
  refine ⟨hstaged.consistent.of_ports_eq h.ports, fun id => ?_⟩
  have howner : id ∈ ownerOf' ↔ id ∈ staging.solvers ∨ id ∈ ownerOf := by
    rw [OrdMap.mem_iff_exists, h.owners id]
    split_ifs with hmem
    · exact ⟨fun _ => Or.inl hmem, fun _ => ⟨_, rfl⟩⟩
    · rw [← OrdMap.mem_iff_exists]
      exact ⟨Or.inr, fun hor => hor.resolve_left hmem⟩
  rw [howner, hcons.owners id, OrdMap.mem_iff_exists (m := reg'.solvers)]
  simp only [h.solvers id, exists_or, ← OrdMap.mem_iff_exists]
  exact or_comm

theorem Composed.merge {base staging reg' : SolverRegistry K Env} {st : LoadState K Env}
    {ownerOf' : OwnerMap} {contributions : List (Contribution K Env)} {info : PackInfo}
    (h : Composed base st contributions) (hstaged : StagedOver st.registry staging)
    (hmerged : Merged st.registry st.ownerOf info.name staging reg' ownerOf') :
    Composed base ⟨reg', ownerOf', st.loaded ++ [info], st.skipped⟩
      (contributions ++ [⟨info, staging⟩]) where
  consistent := hmerged.consistent h.consistent hstaged
  loaded := by
    show st.loaded ++ [info] = _
    rw [h.loaded, List.map_append]
    rfl
  solvers id e := by
    show reg'.solvers[id]? = some e ↔ _
    rw [hmerged.solvers id e, h.solvers id e, or_assoc]
    simp [or_and_right, exists_or]
  ports port decl := by
    show reg'.ports[port]? = some decl ↔ _
    rw [hmerged.ports]
    simp only [List.mem_append, List.mem_singleton, or_and_right, exists_or, exists_eq_left,
      ← or_assoc]
    rw [← h.ports port decl]
    exact ⟨Or.inr, fun hor => hor.elim (hstaged.ports port decl) fun hget => hget⟩
  owners id owner := by
    show ownerOf'[id]? = some owner ↔ _
    simp only [List.mem_append, List.mem_singleton, or_and_right, exists_or, exists_eq_left,
      ← or_assoc]
    rw [hmerged.owners id, ← h.owners id owner]
    split_ifs with hid
    · have hnot : ¬ st.ownerOf[id]? = some owner := fun hget =>
        hmerged.fresh id hid ((h.consistent.owners id).mp (OrdMap.mem_iff_exists.mpr ⟨_, hget⟩))
      simp only [hnot, hid, and_true, false_or, Option.some.injEq]
      exact eq_comm
    · simp [hid]
  fresh c hc id hid hbase := by
    obtain ⟨e, he⟩ := OrdMap.mem_iff_exists.mp hbase
    rcases List.mem_append.mp hc with hc | hc
    · exact h.fresh c hc id hid hbase
    · obtain rfl := List.mem_singleton.mp hc
      exact hmerged.fresh id hid
        (OrdMap.mem_iff_exists.mpr ⟨e, (h.solvers id e).mpr (Or.inl he)⟩)
  disjoint := by
    refine List.pairwise_append.mpr ⟨h.disjoint, List.pairwise_singleton _ _, ?_⟩
    intro c hc c' hc' id hid hid'
    obtain rfl := List.mem_singleton.mp hc'
    obtain ⟨e, he⟩ := OrdMap.mem_iff_exists.mp hid
    exact hmerged.fresh id hid'
      (OrdMap.mem_iff_exists.mpr ⟨e, (h.solvers id e).mpr (Or.inr ⟨c, hc, he⟩)⟩)

section Load

variable (standard reviewed : List String)

/-- An entry point without a callable is skipped over every registry. -/
theorem composePack_malformed {ep : SolverPackEntryPoint K Env}
    (hload : ∀ program, ep.load ≠ .callable program) :
    ∃ error, ∀ (reg : SolverRegistry K Env) (ownerOf : OwnerMap),
      composePack standard reviewed reg ownerOf ep = .ok (reg, ownerOf, .skipped error) := by
  unfold composePack loadTarget
  rcases hep : ep.load with message | repr | program
  · exact ⟨_, fun _ _ => rfl⟩
  · exact ⟨_, fun _ _ => rfl⟩
  · exact absurd hep (hload program)

theorem composePack_callable {reg seeded : SolverRegistry K Env} {ownerOf : OwnerMap}
    {ep : SolverPackEntryPoint K Env} {program : RegisterProgram K Env}
    (hload : ep.load = .callable program) (hseed : seedStaging reg = .ok seeded) :
    composePack standard reviewed reg ownerOf ep
      = .ok (match (program.run seeded).outcome with
        | .error message =>
            (reg, ownerOf, .skipped (.packRegisterRaised ep.name ("register() raised: " ++ message)))
        | .ok () => mergePack standard reviewed reg ownerOf ep.name (packVersion ep)
            (program.run seeded).registry) := by
  unfold composePack loadTarget
  rw [hload]
  simp only [hseed]
  show (match (program.run seeded).outcome with
      | .error message => pure (reg, ownerOf,
          PackFate.skipped (.packRegisterRaised ep.name ("register() raised: " ++ message)))
      | .ok () => pure (mergePack standard reviewed reg ownerOf ep.name (packVersion ep)
          (program.run seeded).registry) : Except RegistryError _) = _
  rcases (program.run seeded).outcome with message | ⟨⟩ <;> rfl

/-- A callable that is handed a seeded staging registry stages over the real
one. -/
theorem stagedOver_run {reg seeded : SolverRegistry K Env} (h : reg.PortsConsistent)
    (hports : seeded.ports = reg.ports) (program : RegisterProgram K Env) :
    StagedOver reg (program.run seeded).registry :=
  ⟨(extends_run program seeded).consistent (h.of_ports_eq hports),
    fun port decl hget => (extends_run program seeded).ports port decl (by rw [hports]; exact hget)⟩

/-- **One pack**: it is skipped, and the registry and the owner map stay, or it
is loaded and merged. -/
theorem composePack_cases {reg : SolverRegistry K Env} {ownerOf : OwnerMap}
    (hcons : Consistent reg ownerOf) (ep : SolverPackEntryPoint K Env) :
    (∃ error, composePack standard reviewed reg ownerOf ep = .ok (reg, ownerOf, .skipped error)) ∨
      ∃ staging reg' ownerOf', composePack standard reviewed reg ownerOf ep
          = .ok (reg', ownerOf', .loaded ⟨ep.name, packVersion ep⟩) ∧
        StagedBy reg ep ⟨⟨ep.name, packVersion ep⟩, staging⟩ ∧ StagedOver reg staging ∧
        Merged reg ownerOf ep.name staging reg' ownerOf' ∧
        Accepted standard reviewed ep.name staging := by
  by_cases hcallable : ∃ program, ep.load = .callable program
  swap
  · obtain ⟨error, hskipped⟩ := composePack_malformed standard reviewed
      fun program (hload : ep.load = .callable program) => hcallable ⟨program, hload⟩
    exact Or.inl ⟨error, hskipped reg ownerOf⟩
  obtain ⟨program, hload⟩ := hcallable
  obtain ⟨seeded, hseed, hports, -, -⟩ := seedStaging_ok hcons.ports
  have hstaged := stagedOver_run hcons.ports hports program
  rw [composePack_callable standard reviewed hload hseed]
  rcases houtcome : (program.run seeded).outcome with message | ⟨⟩
  · exact Or.inl ⟨_, rfl⟩
  · rcases mergePack_cases standard reviewed hcons hstaged ep.name (packVersion ep) with
      ⟨error, hskipped⟩ | ⟨reg', ownerOf', hloaded, hmerged, haccepted⟩
    · exact Or.inl ⟨error, congrArg _ hskipped⟩
    · exact Or.inr ⟨_, reg', ownerOf', congrArg _ hloaded,
        ⟨rfl, program, seeded, hload, hseed, houtcome, rfl⟩, hstaged, hmerged, haccepted⟩

/-- What a pack does: it is skipped and leaves no trace, or it is loaded and adds
what it staged. -/
def Adds (st : LoadState K Env) (ep : SolverPackEntryPoint K Env) (st' : LoadState K Env) : Prop :=
  (∃ error, st' = { st with skipped := st.skipped ++ [error] }) ∨
    ∃ c, StagedBy st.registry ep c ∧
      Merged st.registry st.ownerOf ep.name c.staging st'.registry st'.ownerOf ∧
      st'.loaded = st.loaded ++ [c.info] ∧ st'.skipped = st.skipped

/-- The step of a composition. -/
theorem loadPack_cases {base : SolverRegistry K Env} {st : LoadState K Env}
    {contributions : List (Contribution K Env)} (h : Composed base st contributions)
    (ep : SolverPackEntryPoint K Env) :
    ∃ st' more, loadPack standard reviewed st ep = .ok st' ∧ Adds st ep st' ∧
      Composed base st' (contributions ++ more) ∧ ∀ c ∈ more, StagedBy st.registry ep c ∧
        Accepted standard reviewed c.info.name c.staging := by
  unfold loadPack
  rcases composePack_cases standard reviewed h.consistent ep with
    ⟨error, hskipped⟩ | ⟨staging, reg', ownerOf', hloaded, hby, hstaged, hmerged, haccepted⟩
  · rw [hskipped]
    refine ⟨_, [], rfl, Or.inl ⟨error, rfl⟩, ?_, fun _ hc => absurd hc List.not_mem_nil⟩
    -- the invariant does not speak of the skipped packs
    rw [List.append_nil]
    exact ⟨h.consistent, h.loaded, h.solvers, h.ports, h.owners, h.fresh, h.disjoint⟩
  · rw [hloaded]
    refine ⟨_, [_], rfl, Or.inr ⟨_, hby, hmerged, rfl, rfl⟩, h.merge hstaged hmerged,
      fun c hc => ?_⟩
    rw [List.mem_singleton.mp hc]
    exact ⟨hby, haccepted⟩

/-- The run of a composition. -/
theorem foldlM_loadPack {base : SolverRegistry K Env} :
    ∀ (eps : List (SolverPackEntryPoint K Env)) {st : LoadState K Env}
      {contributions : List (Contribution K Env)}, Composed base st contributions →
      ∃ final more, eps.foldlM (loadPack standard reviewed) st = .ok final ∧
        Composed base final (contributions ++ more) ∧
        ∀ c ∈ more, (∃ ep ∈ eps, ∃ reg, StagedBy reg ep c) ∧
          Accepted standard reviewed c.info.name c.staging
  | [], st, contributions, h =>
      ⟨st, [], rfl, (List.append_nil contributions).symm ▸ h, fun _ hc => absurd hc List.not_mem_nil⟩
  | ep :: eps, st, contributions, h => by
      obtain ⟨st', added, hstep, -, hcomposed, hby⟩ := loadPack_cases standard reviewed h ep
      obtain ⟨final, more, hrun, hfinal, hmore⟩ := foldlM_loadPack eps hcomposed
      rw [List.foldlM_cons, hstep]
      refine ⟨final, added ++ more, hrun, ?_, fun c hc => ?_⟩
      · rw [← List.append_assoc]
        exact hfinal
      · rcases List.mem_append.mp hc with hc | hc
        · exact ⟨⟨ep, List.mem_cons_self, _, (hby c hc).1⟩, (hby c hc).2⟩
        · obtain ⟨⟨ep', hep', hstaged⟩, haccepted⟩ := hmore c hc
          exact ⟨⟨ep', List.mem_cons_of_mem _ hep', hstaged⟩, haccepted⟩

/-- Composition returns; the registry holds the base and what the loaded packs
staged, every id has one owner, and each pack either leaves the registry and the
owner map as they were before it or adds what it staged over them. -/
def Isolated (base : SolverRegistry K Env) (eps : List (SolverPackEntryPoint K Env)) : Prop :=
  (∃ final contributions, loadSolverPacks standard reviewed base eps = .ok final ∧
    Composed base final contributions ∧
    ∀ c ∈ contributions, ∃ ep ∈ eps, ∃ reg, StagedBy reg ep c) ∧
  ∀ before ep after st, sortedByName eps = before ++ ep :: after →
    before.foldlM (loadPack standard reviewed) (.init base) = .ok st →
    ∃ st', loadPack standard reviewed st ep = .ok st' ∧ Adds st ep st'

/-- **Solver packs are isolated** from a base that is built through its
methods. -/
theorem loadSolverPacks_isolated {base : SolverRegistry K Env} (hbase : base.Built)
    (eps : List (SolverPackEntryPoint K Env)) : Isolated standard reviewed base eps := by
  have hinit := Composed.init hbase.portsConsistent
  refine ⟨?_, fun before ep after st _ hbefore => ?_⟩
  · obtain ⟨final, contributions, hrun, hfinal, hby⟩ :=
      foldlM_loadPack standard reviewed (sortedByName eps) hinit
    refine ⟨final, contributions, hrun, hfinal, fun c hc => ?_⟩
    obtain ⟨⟨ep, hep, hstaged⟩, -⟩ := hby c hc
    exact ⟨ep, (List.perm_insertionSort _ _).mem_iff.mp hep, hstaged⟩
  · obtain ⟨st₁, contributions, hrun, hst, -⟩ := foldlM_loadPack standard reviewed before hinit
    obtain rfl := Except.ok.inj (hrun.symm.trans hbefore)
    obtain ⟨st', -, hstep, hadds, -⟩ := loadPack_cases standard reviewed hst ep
    exact ⟨st', hstep, hadds⟩

end Load

/-! ### A pack that fails midway -/

/-- A solver `x → y` in a namespace. -/
def packInfo (ns : String) (solverId : SolverId) : SolverInfo ℚ :=
  { plainInfo (plainSolver solverId ["x"] [("y", 0)] 1 .both) with ns }

/-- A pack that registers one solver, and then ends or raises. -/
def packProgram (ns : String) (solverId : SolverId) (ending : RegisterProgram ℚ Unit) :
    RegisterProgram ℚ Unit :=
  .register (packInfo ns solverId) (plainFn fun x => [("y", scalarArg x "x")]) fun _ => ending

/-- `bearings` registers a solver; `gears` registers one and raises. -/
def bearingsAndGears : List (SolverPackEntryPoint ℚ Unit) :=
  [⟨"gears", .callable (packProgram "gears" "gears.ratio" (.raise "no table")), some "2"⟩,
    ⟨"bearings", .callable (packProgram "bearings" "bearings.life" .finish), some "1"⟩]

theorem loadSolverPacks_isolated_bearings :
    (loadSolverPacks defaultStandardNamespaces [] SolverRegistry.empty
        bearingsAndGears).toOption.map (fun st => (st.registry.solvers.keys, st.loaded, st.skipped))
      = some (["bearings.life"], [⟨"bearings", "1"⟩],
        [.packRegisterRaised "gears" "register() raised: no table"]) ∧
    Isolated defaultStandardNamespaces [] SolverRegistry.empty bearingsAndGears :=
  ⟨by decide +kernel, loadSolverPacks_isolated _ _ .empty _⟩

end Packs

end Feldspar

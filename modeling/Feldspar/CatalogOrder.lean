/-
Feldspar/CatalogOrder.lean

The order in which families register (`catalog.py`).

Each family's `register` makes calls on the one registry, and raises on an
`Err` (`.danger_ok`).  What a catalog holds after the calls does not depend on
their order (`Holds`, `Holds.unique`), and of what `register` checks only the
port guard does: it is armed by the first declaration, and then every port of a
solver has to be declared by then (`Guarded`).  So another order of calls that
compose gives the same catalog, or it is refused for an unknown port
(`buildEngineCatalog_perm`).
-/
import Feldspar.PackIndependence

set_option linter.unusedSectionVars false

namespace Feldspar

variable {K : Type} [Field K] [LinearOrder K] {Env : Type}

namespace CatalogOrder

/-! ### Composition -/

/-- A call that a family makes on the registry. -/
inductive RegistryCall (K Env : Type) [Field K] [LinearOrder K]
  | declarePorts (decls : List PortDecl)
  | register (info : SolverInfo K) (fn : SolveFn K Env)

namespace RegistryCall

/-- The call, with `.danger_ok` on its result. -/
def apply (reg : SolverRegistry K Env) :
    RegistryCall K Env → Except RegistryError (SolverRegistry K Env)
  | declarePorts decls =>
      match reg.declarePorts decls with
      | (reg', .ok ()) => .ok reg'
      | (_, .error e) => .error e
  | register info fn => reg.register info fn

def decls : RegistryCall K Env → List PortDecl
  | declarePorts decls => decls
  | register _ _ => []

def solvers : RegistryCall K Env → List (SolverInfo K × SolveFn K Env)
  | declarePorts _ => []
  | register info fn => [(info, fn)]

end RegistryCall

/-- The calls of a family's `register`. -/
abbrev Family (K Env : Type) [Field K] [LinearOrder K] := List (RegistryCall K Env)

/-- `build_engine_catalog`. -/
def buildEngineCatalog (families : List (Family K Env)) :
    Except RegistryError (SolverRegistry K Env) := do
  let registry ← families.foldlM (fun registry family =>
    family.foldlM RegistryCall.apply registry) SolverRegistry.empty
  pure registry.freeze

def declared (calls : List (RegistryCall K Env)) : List PortDecl := calls.flatMap RegistryCall.decls

def registered (calls : List (RegistryCall K Env)) : List (SolverInfo K × SolveFn K Env) :=
  calls.flatMap RegistryCall.solvers

/-! ### What the calls need -/

def KnownKind (decl : PortDecl) : Prop :=
  ∀ kind, decl.rank.payloadKind = some kind → kind ∈ payloadKinds

/-- No port is declared twice, no id is taken twice, and every declaration and
every solver is in order by itself. -/
structure Distinct (calls : List (RegistryCall K Env)) : Prop where
  names : ((declared calls).map PortDecl.name).Nodup
  known : ∀ decl ∈ declared calls, KnownKind decl
  ids : ((registered calls).map fun e => e.1.solverId).Nodup
  registrable : ∀ e ∈ registered calls, e.1.Registrable

/-- The ports of a solver are declared, or none is. -/
def PortsKnown (decls : List PortDecl) (info : SolverInfo K) : Prop :=
  decls = [] ∨ ∀ port ∈ Packs.touchedPorts info, port ∈ decls.map PortDecl.name

/-- Each solver's ports are known when it is registered. -/
def Guarded (decls : List PortDecl) : List (RegistryCall K Env) → Prop
  | [] => True
  | call :: calls =>
      (∀ e ∈ call.solvers, PortsKnown decls e.1) ∧ Guarded (decls ++ call.decls) calls

instance (decls : List PortDecl) (info : SolverInfo K) : Decidable (PortsKnown decls info) :=
  inferInstanceAs (Decidable (_ ∨ _))

instance decidableGuarded : ∀ (decls : List PortDecl) (calls : List (RegistryCall K Env)),
    Decidable (Guarded decls calls)
  | _, [] => isTrue trivial
  | decls, call :: calls =>
      have := decidableGuarded (decls ++ call.decls) calls
      inferInstanceAs (Decidable (_ ∧ _))

/-- The registry has what the calls declared and registered. -/
structure Holds (calls : List (RegistryCall K Env)) (reg : SolverRegistry K Env) : Prop where
  unfrozen : reg.frozen = false
  ports : ∀ port decl, reg.ports[port]? = some decl ↔ decl ∈ declared calls ∧ decl.name = port
  solvers : ∀ id e, reg.solvers[id]? = some e ↔ e ∈ registered calls ∧ e.1.solverId = id

section Calls

variable {calls calls' done : List (RegistryCall K Env)} {call : RegistryCall K Env}
  {reg reg' : SolverRegistry K Env}

theorem declared_append : declared (calls ++ calls') = declared calls ++ declared calls' :=
  List.flatMap_append

theorem registered_append : registered (calls ++ calls') = registered calls ++ registered calls' :=
  List.flatMap_append

theorem Distinct.perm (h : Distinct calls) (hperm : calls.Perm calls') : Distinct calls' where
  names := (((hperm.flatMap_right _).map _).nodup_iff).mp h.names
  known decl hdecl := h.known decl ((hperm.flatMap_right _).mem_iff.mpr hdecl)
  ids := (((hperm.flatMap_right _).map _).nodup_iff).mp h.ids
  registrable e he := h.registrable e ((hperm.flatMap_right _).mem_iff.mpr he)

theorem Distinct.of_append (h : Distinct (calls ++ calls')) : Distinct calls where
  names := by
    have hnames := h.names
    rw [declared_append, List.map_append] at hnames
    exact hnames.of_append_left
  known decl hdecl := h.known decl (by
    rw [declared_append]
    exact List.mem_append_left _ hdecl)
  ids := by
    have hids := h.ids
    rw [registered_append, List.map_append] at hids
    exact hids.of_append_left
  registrable e he := h.registrable e (by
    rw [registered_append]
    exact List.mem_append_left _ he)

/-- The order of the calls is not to be seen in the registry. -/
theorem Holds.unique (h : Holds calls reg) (h' : Holds calls' reg') (hperm : calls.Perm calls') :
    reg = reg' := by
  apply SolverRegistry.ext
  · apply Std.ExtTreeMap.ext_getElem?
    intro id
    apply Option.ext
    intro e
    rw [h.solvers, h'.solvers, registered, registered, (hperm.flatMap_right _).mem_iff]
  · apply Std.ExtTreeMap.ext_getElem?
    intro port
    apply Option.ext
    intro decl
    rw [h.ports, h'.ports, declared, declared, (hperm.flatMap_right _).mem_iff]
  · rw [h.unfrozen, h'.unfrozen]

theorem holds_empty : Holds [] (SolverRegistry.empty : SolverRegistry K Env) where
  unfrozen := rfl
  ports port decl := by simp [declared, SolverRegistry.empty]
  solvers id e := by simp [registered, SolverRegistry.empty]

/-! ### One call -/

theorem Holds.getElem?_ports_eq_none (h : Holds done reg) {port : Port} :
    reg.ports[port]? = none ↔ port ∉ (declared done).map PortDecl.name := by
  rw [Option.eq_none_iff_forall_ne_some]
  constructor
  · rintro hnone hmem
    obtain ⟨decl, hdecl, rfl⟩ := List.mem_map.mp hmem
    exact hnone decl ((h.ports _ _).mpr ⟨hdecl, rfl⟩)
  · rintro hfree decl hget
    obtain ⟨hdecl, rfl⟩ := (h.ports _ _).mp hget
    exact hfree (List.mem_map_of_mem hdecl)

theorem Holds.mem_ports (h : Holds done reg) {port : Port} :
    port ∈ reg.ports ↔ port ∈ (declared done).map PortDecl.name := by
  rw [← not_iff_not, ← h.getElem?_ports_eq_none]
  simp

theorem Holds.mem_solvers (h : Holds done reg) {id : SolverId} :
    id ∈ reg.solvers ↔ id ∈ (registered done).map fun e => e.1.solverId := by
  rw [OrdMap.mem_iff_exists, List.mem_map]
  exact exists_congr fun e => h.solvers id e

theorem Holds.isEmpty_ports (h : Holds done reg) :
    reg.ports.isEmpty = true ↔ declared done = [] := by
  rw [Std.ExtTreeMap.isEmpty_iff]
  constructor
  · intro hempty
    rw [List.eq_nil_iff_forall_not_mem]
    intro decl hdecl
    have hget := (h.ports _ _).mpr ⟨hdecl, rfl⟩
    rw [hempty] at hget
    simp at hget
  · intro hnone
    apply Std.ExtTreeMap.ext_getElem?
    intro port
    rw [h.getElem?_ports_eq_none.mpr (by simp [hnone])]
    simp

/-- What is left of `register` for a solver that is in order by itself. -/
theorem Holds.rejection (h : Holds done reg) {info : SolverInfo K}
    (hinfo : info.Registrable) (hid : info.solverId ∉ (registered done).map fun e => e.1.solverId) :
    (PortsKnown (declared done) info → reg.rejection info = none) ∧
      (¬ PortsKnown (declared done) info → ∃ port, reg.rejection info = some (.unknownPort port)) := by
  have hid' : info.solverId ∉ reg.solvers := fun hmem => hid (h.mem_solvers.mp hmem)
  have haccuracy : (∀ p ∈ info.accuracy.keys, p ∈ info.outputs) ∧
      ∀ p ∈ info.outputs, p ∈ info.accuracy :=
    ⟨fun p hp => (hinfo.accuracy p).mp (by simpa using hp), fun p => (hinfo.accuracy p).mpr⟩
  have hcitations : ¬ ∀ c ∈ info.citations, c.kind = .calibration := by
    obtain ⟨c, hc, hne⟩ := hinfo.citations
    exact fun hall => hne (hall c hc)
  unfold SolverRegistry.rejection
  rw [if_neg (by rw [h.unfrozen]; exact Bool.false_ne_true), if_neg hid',
    if_neg (not_le.mpr hinfo.cost_pos), if_neg (not_not.mpr haccuracy), if_neg hcitations]
  by_cases hempty : declared done = []
  · rw [if_pos (h.isEmpty_ports.mpr hempty)]
    exact ⟨fun _ => rfl, fun hunknown => absurd (Or.inl hempty) hunknown⟩
  · rw [if_neg (mt h.isEmpty_ports.mp hempty)]
    constructor
    · rintro (hnone | hknown)
      · exact absurd hnone hempty
      · rw [Option.map_eq_none_iff, List.find?_eq_none]
        intro port hport hnotin
        exact of_decide_eq_true hnotin (h.mem_ports.mpr (hknown port hport))
    · intro hunknown
      rw [PortsKnown, not_or] at hunknown
      obtain ⟨port, hport, hfree⟩ := not_forall₂.mp hunknown.2
      have hfind : ((Packs.touchedPorts info).find? fun port => port ∉ reg.ports).isSome = true := by
        rw [List.find?_isSome]
        exact ⟨port, hport, decide_eq_true (mt h.mem_ports.mp hfree)⟩
      obtain ⟨port', hport'⟩ := Option.isSome_iff_exists.mp hfind
      exact ⟨port', congrArg (Option.map RegistryError.unknownPort) hport'⟩

/-- Declarations that are accepted were of known kinds, and of names that were
free and distinct. -/
theorem declarePorts_ok : ∀ {decls : List PortDecl} {reg reg' : SolverRegistry K Env},
    reg.declarePorts decls = (reg', .ok ()) → reg.frozen = false ∧
      (decls.map PortDecl.name).Nodup ∧
      ∀ decl ∈ decls, reg.ports[decl.name]? = none ∧ KnownKind decl := by
  intro decls
  induction decls with
  | nil =>
      intro reg reg' h
      have hfrozen := (Prod.mk.inj h).2
      rcases hf : reg.frozen with - | -
      · exact ⟨rfl, List.nodup_nil, fun _ hmem => absurd hmem List.not_mem_nil⟩
      · rw [hf, if_pos rfl] at hfrozen
        cases hfrozen
  | cons decl decls ih =>
      intro reg reg' h
      unfold SolverRegistry.declarePorts at h
      split at h
      · cases (Prod.mk.inj h).2
      rename_i hfrozen
      split at h
      · cases (Prod.mk.inj h).2
      rename_i ports hok
      obtain ⟨hknown, hfree, rfl⟩ := SolverRegistry.declarePort_ok.mp hok
      obtain ⟨-, hnodup, hall⟩ := ih h
      have hrest : ∀ decl' ∈ decls, decl.name ≠ decl'.name ∧ reg.ports[decl'.name]? = none := by
        intro decl' hdecl'
        have hnone := (hall decl' hdecl').1
        rw [OrdMap.getElem?_insert_eq] at hnone
        split_ifs at hnone with hne
        exact ⟨hne, hnone⟩
      refine ⟨Bool.not_eq_true _ ▸ hfrozen, List.nodup_cons.mpr ⟨fun hmem => ?_, hnodup⟩,
        List.forall_mem_cons.mpr ⟨⟨hfree, hknown⟩, fun decl' hdecl' =>
          ⟨(hrest decl' hdecl').2, (hall decl' hdecl').2⟩⟩⟩
      obtain ⟨decl', hdecl', heq⟩ := List.mem_map.mp hmem
      exact (hrest decl' hdecl').1 heq.symm

/-- A declaration is found by its name. -/
theorem find?_name {decls : List PortDecl} (hnodup : (decls.map PortDecl.name).Nodup) {port : Port}
    {decl : PortDecl} : (decls.find? fun d => d.name = port) = some decl ↔
      decl ∈ decls ∧ decl.name = port := by
  constructor
  · intro hfind
    exact ⟨List.mem_of_find?_eq_some hfind, by simpa using List.find?_some hfind⟩
  · rintro ⟨hmem, hname⟩
    have hsome : (decls.find? fun d => d.name = port).isSome = true := by
      rw [List.find?_isSome]
      exact ⟨decl, hmem, decide_eq_true hname⟩
    obtain ⟨decl', hfind⟩ := Option.isSome_iff_exists.mp hsome
    have hname' : decl'.name = port := by simpa using List.find?_some hfind
    rw [hfind, List.inj_on_of_nodup_map hnodup (List.mem_of_find?_eq_some hfind) hmem
      (hname'.trans hname.symm)]

/-- What a call adds is seen in the registry. -/
theorem Holds.snoc_declare (h : Holds done reg) {decls : List PortDecl}
    (hnodup : (decls.map PortDecl.name).Nodup)
    (hfresh : ∀ decl ∈ decls, reg.ports[decl.name]? = none ∧ KnownKind decl) :
    ∃ reg', (RegistryCall.declarePorts decls).apply reg = .ok reg' ∧
      Holds (done ++ [.declarePorts decls]) reg' := by
  have hok := SolverRegistry.declarePorts_fresh decls reg h.unfrozen hnodup hfresh
  refine ⟨{ reg with ports := SolverRegistry.withDecls reg.ports decls }, ?_, h.unfrozen, ?_, ?_⟩
  · rw [RegistryCall.apply, hok]
  · intro port decl
    show (SolverRegistry.withDecls reg.ports decls)[port]? = some decl ↔ _
    rw [SolverRegistry.getElem?_withDecls hnodup, declared_append, List.mem_append, Option.or_eq_some_iff,
      find?_name hnodup, h.ports]
    have hother : decl ∈ declared done → decl.name = port →
        (decls.find? fun d => d.name = port) = none := by
      intro hdecl hname
      rw [List.find?_eq_none]
      intro d hd heq
      have hnone := (hfresh d hd).1
      rw [of_decide_eq_true heq, (h.ports _ _).mpr ⟨hdecl, hname⟩] at hnone
      cases hnone
    simp only [declared, RegistryCall.decls, List.flatMap_cons, List.flatMap_nil, List.append_nil]
      at hother ⊢
    tauto
  · intro id e
    show reg.solvers[id]? = some e ↔ _
    rw [h.solvers, registered_append]
    simp [registered, RegistryCall.solvers]

theorem Holds.snoc_register (h : Holds done reg) {info : SolverInfo K} {fn : SolveFn K Env}
    (hok : reg.register info fn = .ok reg') : Holds (done ++ [.register info fn]) reg' := by
  obtain ⟨hid, hsolvers, hports, hfrozen⟩ := SolverRegistry.register_ok hok
  refine ⟨hfrozen ▸ h.unfrozen, fun port decl => ?_, fun id e => ?_⟩
  · rw [hports, h.ports, declared_append]
    simp [declared, RegistryCall.decls]
  · rw [hsolvers, OrdMap.getElem?_insert_eq, registered_append, List.mem_append]
    simp only [registered, RegistryCall.solvers, List.flatMap_cons, List.flatMap_nil,
      List.append_nil, List.mem_singleton]
    split_ifs with heq
    · subst heq
      constructor
      · intro he
        rw [← Option.some.inj he]
        exact ⟨Or.inr rfl, rfl⟩
      · rintro ⟨he | rfl, hide⟩
        · exact absurd (h.mem_solvers.mpr (List.mem_map.mpr ⟨e, he, hide⟩)) hid
        · rfl
    · rw [h.solvers]
      constructor
      · exact fun he => ⟨Or.inl he.1, he.2⟩
      · rintro ⟨he | rfl, hide⟩
        · exact ⟨he, hide⟩
        · exact absurd hide heq

/-! ### All calls -/

theorem Distinct.nil : Distinct ([] : List (RegistryCall K Env)) where
  names := List.nodup_nil
  known _ h := absurd h List.not_mem_nil
  ids := List.nodup_nil
  registrable _ h := absurd h List.not_mem_nil

/-- One more call is distinct from the others. -/
theorem distinct_snoc : Distinct (done ++ [call]) ↔ Distinct done ∧
    ((call.decls.map PortDecl.name).Nodup ∧ ∀ decl ∈ call.decls, KnownKind decl ∧
      decl.name ∉ (declared done).map PortDecl.name) ∧
    ((call.solvers.map fun e => e.1.solverId).Nodup ∧ ∀ e ∈ call.solvers, e.1.Registrable ∧
      e.1.solverId ∉ (registered done).map fun e => e.1.solverId) := by
  have hdecls : declared (done ++ [call]) = declared done ++ call.decls := by
    simp [declared]
  have hsolvers : registered (done ++ [call]) = registered done ++ call.solvers := by
    simp [registered]
  constructor
  · rintro ⟨hnames, hknown, hids, hregistrable⟩
    rw [hdecls] at hknown
    rw [hsolvers] at hregistrable
    rw [hdecls, List.map_append, List.nodup_append'] at hnames
    rw [hsolvers, List.map_append, List.nodup_append'] at hids
    obtain ⟨hnames, hnames', hapart⟩ := hnames
    obtain ⟨hids, hids', hapart'⟩ := hids
    refine ⟨⟨hnames, fun d hd => hknown d (List.mem_append_left _ hd), hids,
      fun e he => hregistrable e (List.mem_append_left _ he)⟩,
      ⟨hnames', fun d hd => ⟨hknown d (List.mem_append_right _ hd), fun hmem =>
        hapart hmem (List.mem_map_of_mem hd)⟩⟩,
      ⟨hids', fun e he => ⟨hregistrable e (List.mem_append_right _ he), fun hmem =>
        hapart' hmem (List.mem_map_of_mem he)⟩⟩⟩
  · rintro ⟨⟨hnames, hknown, hids, hregistrable⟩, ⟨hnames', hfree⟩, hids', hfree'⟩
    refine ⟨?_, ?_, ?_, ?_⟩
    · rw [hdecls, List.map_append, List.nodup_append']
      refine ⟨hnames, hnames', fun p hp hp' => ?_⟩
      obtain ⟨d, hd, rfl⟩ := List.mem_map.mp hp'
      exact (hfree d hd).2 hp
    · rw [hdecls]
      exact List.forall_mem_append.mpr ⟨hknown, fun d hd => (hfree d hd).1⟩
    · rw [hsolvers, List.map_append, List.nodup_append']
      refine ⟨hids, hids', fun p hp hp' => ?_⟩
      obtain ⟨e, he, rfl⟩ := List.mem_map.mp hp'
      exact (hfree' e he).2 hp
    · rw [hsolvers]
      exact List.forall_mem_append.mpr ⟨hregistrable, fun e he => (hfree' e he).1⟩

theorem register_of_some {info : SolverInfo K} (fn : SolveFn K Env) {e : RegistryError}
    (h : reg.rejection info = some e) : reg.register info fn = .error e := by
  unfold SolverRegistry.register
  split
  · rename_i e' h'
    rw [h] at h'
    rw [Option.some.inj h']
  · rename_i h'
    rw [h] at h'
    cases h'

theorem register_of_none {info : SolverInfo K} (fn : SolveFn K Env)
    (h : reg.rejection info = none) : ∃ reg', reg.register info fn = .ok reg' := by
  unfold SolverRegistry.register
  split
  · rename_i e' h'
    rw [h] at h'
    cases h'
  · exact ⟨_, rfl⟩

/-- A call that is accepted. -/
theorem Holds.of_apply (h : Holds done reg) (hdistinct : Distinct done)
    (hok : call.apply reg = .ok reg') : Holds (done ++ [call]) reg' ∧ Distinct (done ++ [call]) ∧
      ∀ e ∈ call.solvers, PortsKnown (declared done) e.1 := by
  rcases call with decls | ⟨info, fn⟩
  · rcases hcall : reg.declarePorts decls with ⟨reg₁, e | ⟨⟩⟩ <;> rw [RegistryCall.apply, hcall] at hok
    · cases hok
    obtain rfl := Except.ok.inj hok
    obtain ⟨-, hnodup, hfresh⟩ := declarePorts_ok hcall
    obtain ⟨reg'', hok', hholds⟩ := h.snoc_declare hnodup hfresh
    rw [RegistryCall.apply, hcall] at hok'
    obtain rfl := Except.ok.inj hok'
    refine ⟨hholds, distinct_snoc.mpr ⟨hdistinct, ⟨hnodup, fun d hd =>
      ⟨(hfresh d hd).2, h.getElem?_ports_eq_none.mp (hfresh d hd).1⟩⟩, List.nodup_nil,
      fun _ hmem => absurd hmem List.not_mem_nil⟩, fun _ hmem => absurd hmem List.not_mem_nil⟩
  · have hnone : reg.rejection info = none := by
      rcases hr : reg.rejection info with - | e
      · rfl
      · rw [RegistryCall.apply, register_of_some fn hr] at hok
        cases hok
    have hregistrable := SolverRegistry.registrable_of_rejection hnone
    have hid : info.solverId ∉ (registered done).map fun e => e.1.solverId :=
      mt h.mem_solvers.mpr (SolverRegistry.register_ok hok).1
    refine ⟨h.snoc_register hok, distinct_snoc.mpr ⟨hdistinct, ⟨List.nodup_nil,
      fun _ hmem => absurd hmem List.not_mem_nil⟩, List.nodup_singleton _, ?_⟩, ?_⟩
    · exact List.forall_mem_singleton.mpr ⟨hregistrable, hid⟩
    · refine List.forall_mem_singleton.mpr (by_contra fun hunknown => ?_)
      obtain ⟨port, hport⟩ := (h.rejection hregistrable hid).2 hunknown
      rw [hnone] at hport
      cases hport

/-- A call that is distinct from the others is accepted, or its ports are not
known. -/
theorem Holds.apply (h : Holds done reg) (hdistinct : Distinct (done ++ [call])) :
    ((∀ e ∈ call.solvers, PortsKnown (declared done) e.1) →
      ∃ reg', call.apply reg = .ok reg' ∧ Holds (done ++ [call]) reg') ∧
    ((¬ ∀ e ∈ call.solvers, PortsKnown (declared done) e.1) →
      ∃ port, call.apply reg = .error (.unknownPort port)) := by
  obtain ⟨-, ⟨hnodup, hfresh⟩, -, hsolvers⟩ := distinct_snoc.mp hdistinct
  rcases call with decls | ⟨info, fn⟩
  · refine ⟨fun _ => h.snoc_declare hnodup fun d hd => ⟨?_, (hfresh d hd).1⟩, fun hunknown =>
      absurd (fun _ hmem => absurd hmem List.not_mem_nil) hunknown⟩
    exact h.getElem?_ports_eq_none.mpr (hfresh d hd).2
  · obtain ⟨hregistrable, hid⟩ := hsolvers (info, fn) (List.mem_singleton_self _)
    obtain ⟨hnone, hsome⟩ := h.rejection hregistrable hid
    constructor
    · intro hknown
      obtain ⟨reg', hok⟩ := register_of_none fn (hnone (hknown (info, fn) (List.mem_singleton_self _)))
      exact ⟨reg', hok, h.snoc_register hok⟩
    · intro hunknown
      obtain ⟨port, hport⟩ := hsome fun hknown => hunknown (List.forall_mem_singleton.mpr hknown)
      exact ⟨port, register_of_some fn hport⟩

/-- What calls that are accepted one after the other tell. -/
theorem Holds.of_foldlM : ∀ {calls done : List (RegistryCall K Env)}
    {reg reg' : SolverRegistry K Env}, Holds done reg → Distinct done →
    calls.foldlM RegistryCall.apply reg = .ok reg' →
    Holds (done ++ calls) reg' ∧ Distinct (done ++ calls) ∧ Guarded (declared done) calls := by
  intro calls
  induction calls with
  | nil =>
      intro done reg reg' h hdistinct hok
      obtain rfl := Except.ok.inj hok
      rw [List.append_nil]
      exact ⟨h, hdistinct, trivial⟩
  | cons call calls ih =>
      intro done reg reg' h hdistinct hok
      rw [List.foldlM_cons] at hok
      obtain ⟨reg₁, hcall, hrest⟩ := Fallible.bind_eq_ok.mp hok
      obtain ⟨h₁, hdistinct₁, hknown⟩ := h.of_apply hdistinct hcall
      obtain ⟨h', hdistinct', hguarded⟩ := ih h₁ hdistinct₁ hrest
      rw [List.append_cons]
      refine ⟨h', hdistinct', hknown, ?_⟩
      rwa [declared_append, show declared [call] = call.decls from List.append_nil _] at hguarded

/-- Distinct calls are all accepted, or one of them for an unknown port not. -/
theorem Holds.foldlM : ∀ {calls done : List (RegistryCall K Env)} {reg : SolverRegistry K Env},
    Holds done reg → Distinct (done ++ calls) →
    (Guarded (declared done) calls → ∃ reg', calls.foldlM RegistryCall.apply reg = .ok reg') ∧
    (¬ Guarded (declared done) calls →
      ∃ port, calls.foldlM RegistryCall.apply reg = .error (.unknownPort port)) := by
  intro calls
  induction calls with
  | nil => exact fun _ _ => ⟨fun _ => ⟨_, rfl⟩, fun hguarded => absurd trivial hguarded⟩
  | cons call calls ih =>
      intro done reg h hdistinct
      rw [List.append_cons] at hdistinct
      have hdeclared : declared (done ++ [call]) = declared done ++ call.decls := by
        simp [declared]
      obtain ⟨haccepted, hrefused⟩ := h.apply hdistinct.of_append
      rw [List.foldlM_cons]
      by_cases hknown : ∀ e ∈ call.solvers, PortsKnown (declared done) e.1
      · obtain ⟨reg₁, hcall, h₁⟩ := haccepted hknown
        obtain ⟨hok, herror⟩ := ih h₁ hdistinct
        rw [hdeclared] at hok herror
        rw [hcall]
        exact ⟨fun hguarded => hok hguarded.2, fun hguarded => herror fun hrest =>
          hguarded ⟨hknown, hrest⟩⟩
      · obtain ⟨port, hcall⟩ := hrefused hknown
        rw [hcall]
        exact ⟨fun hguarded => absurd hguarded.1 hknown, fun _ => ⟨port, rfl⟩⟩

end Calls

/-! ### The catalog -/

section Families

variable {families families' : List (Family K Env)} {catalog : SolverRegistry K Env}

/-- The families' calls are made one after the other. -/
theorem buildEngineCatalog_eq : buildEngineCatalog families =
    families.flatten.foldlM RegistryCall.apply SolverRegistry.empty >>= fun registry =>
      pure registry.freeze := by
  have hflatten : ∀ (families : List (Family K Env)) (reg : SolverRegistry K Env),
      families.foldlM (fun registry family => family.foldlM RegistryCall.apply registry) reg
        = families.flatten.foldlM RegistryCall.apply reg := by
    intro families
    induction families with
    | nil => exact fun _ => rfl
    | cons family families ih =>
        intro reg
        rw [List.foldlM_cons, List.flatten_cons, List.foldlM_append]
        exact congrArg _ (funext ih)
  rw [buildEngineCatalog, hflatten]

/-- The catalog of calls that compose. -/
theorem buildEngineCatalog_ok (h : buildEngineCatalog families = .ok catalog) :
    Distinct families.flatten ∧ Guarded [] families.flatten ∧
      ∃ reg, Holds families.flatten reg ∧ catalog = reg.freeze := by
  rw [buildEngineCatalog_eq] at h
  obtain ⟨reg, hcalls, hcatalog⟩ := Fallible.bind_eq_ok.mp h
  obtain ⟨hholds, hdistinct, hguarded⟩ := holds_empty.of_foldlM Distinct.nil hcalls
  exact ⟨hdistinct, hguarded, reg, hholds, (Except.ok.inj hcatalog).symm⟩

/-- **Another order of the calls** gives the same catalog, if every solver's
ports are known when it is registered; else it is refused for an unknown
port. -/
theorem buildEngineCatalog_perm (hperm : families.flatten.Perm families'.flatten)
    (h : buildEngineCatalog families = .ok catalog) :
    (Guarded [] families'.flatten → buildEngineCatalog families' = .ok catalog) ∧
    (¬ Guarded [] families'.flatten →
      ∃ port, buildEngineCatalog families' = .error (.unknownPort port)) := by
  obtain ⟨hdistinct, -, reg, hholds, rfl⟩ := buildEngineCatalog_ok h
  have hdistinct' := hdistinct.perm hperm
  obtain ⟨hok, herror⟩ := Holds.foldlM holds_empty hdistinct'
  rw [buildEngineCatalog_eq]
  constructor
  · intro hguarded
    obtain ⟨reg', hcalls⟩ := hok hguarded
    have hholds' := (holds_empty.of_foldlM Distinct.nil hcalls).1
    rw [hcalls, hholds.unique hholds' hperm]
    rfl
  · intro hguarded
    obtain ⟨port, hcalls⟩ := herror hguarded
    exact ⟨port, by rw [hcalls]; rfl⟩

end Families

/-! ### A shared vocabulary -/

section Vocabulary

def scalarDecl (name : Port) : PortDecl := ⟨name, "1", .scalar⟩

/-- The family that declares what others refer to. -/
def coreFamily : Family ℚ Unit := [.declarePorts [scalarDecl "x"]]

/-- A family with a port of its own and one that it has not declared. -/
def thumbFamily : Family ℚ Unit :=
  [.declarePorts [scalarDecl "y"],
    .register (plainInfo (plainSolver "thumb" ["x"] [("y", 1)] 1 .both))
      (plainFn fun x => [("y", scalarArg x "x")])]

/-- The other way round the guard is armed too early. -/
theorem buildEngineCatalog_perm_thumb :
    ∃ port, buildEngineCatalog [thumbFamily, coreFamily] = .error (.unknownPort port) :=
  (buildEngineCatalog_perm
    (show [coreFamily, thumbFamily].flatten.Perm [thumbFamily, coreFamily].flatten from
      List.perm_append_comm)
    (Fallible.eq_ok_get (show (buildEngineCatalog [coreFamily, thumbFamily]).toOption.isSome = true
      by decide +kernel))).2 (by decide +kernel)

end Vocabulary

end CatalogOrder

end Feldspar

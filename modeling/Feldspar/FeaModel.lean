/-
Feldspar/FeaModel.lean

What a deck says to the solver (`Model`), and the reader of decks: every card
adds to the model, and a set or a material has to be there before it is named,
a load inside a step.

The decks of `FeaDeck` are read as the mesh they were built from, with its
material, its supports and its loads (`readModel_cantileverDeck` and the
others), provided that a formatted float is read back (`IsFloat`).
-/
import Feldspar.FeaDeck
import Mathlib.Algebra.BigOperators.Group.Finset.Piecewise
import Mathlib.Algebra.Field.Rat
import Mathlib.Algebra.Order.Ring.Rat
import Mathlib.Tactic.NormNum

set_option linter.unusedSectionVars false

namespace Feldspar

namespace FeaDeck

open CardText (Card IsField)

variable {K : Type} [Field K] [LinearOrder K]

/-! ### Models -/

structure Element where
  id : ℕ
  type : String
  elset : String
  nodeIds : List ℕ
  deriving DecidableEq

structure MaterialData (K : Type) where
  name : String
  elastic : Option (K × K) := none
  density : Option K := none

inductive Procedure
  | static
  | frequency (numModes : ℕ)
  deriving DecidableEq

structure Support where
  nset : String
  first : ℕ
  last : ℕ
  deriving DecidableEq

structure Load (K : Type) where
  nset : String
  dof : ℕ
  value : K

/-- What a deck says; the material that is being described comes first. -/
structure Model (K : Type) where
  nodes : List (ℕ × K × K × K) := []
  elsets : List String := []
  elements : List Element := []
  nsets : List (String × List ℕ) := []
  materials : List (MaterialData K) := []
  sections : List (String × String) := []
  supports : List Support := []
  inStep : Bool := false
  procedure : Option Procedure := none
  loads : List (Load K) := []
  requests : List (String × List String) := []

namespace Model

variable (model : Model K)

def HasNset (name : String) : Prop := name ∈ model.nsets.map Prod.fst

instance (name : String) : Decidable (model.HasNset name) := inferInstanceAs (Decidable (_ ∈ _))

/-- The nodes of a set. -/
def nset (name : String) : List ℕ :=
  ((model.nsets.find? fun e => e.1 = name).map Prod.snd).getD []

/-- The force on a node, in one degree of freedom. -/
def loadAt (dof id : ℕ) : K :=
  (model.loads.map fun load =>
    if load.dof = dof ∧ id ∈ model.nset load.nset then load.value else 0).sum

def totalLoad (dof : ℕ) : K := (model.nodes.map fun node => model.loadAt dof node.1).sum

end Model

/-! ### Reading -/

/-- The value of a parameter of a keyword line, ` key=value`. -/
def param (key field : String) : Option String :=
  let start := (" " ++ key ++ "=").toList
  if start.isPrefixOf field.toList then
    some (String.ofList (field.toList.drop start.length))
  else none

section Read

variable (parse : String → Option K)

def readNode : List String → Option (ℕ × K × K × K)
  | [id, x, y, z] => do
      let id ← id.toNat?
      let x ← parse x
      let y ← parse y
      let z ← parse z
      pure (id, x, y, z)
  | _ => none

def readElement (type elset : String) : List String → Option Element
  | id :: nodeIds => do
      let id ← id.toNat?
      let nodeIds ← nodeIds.mapM String.toNat?
      pure ⟨id, type, elset, nodeIds⟩
  | [] => none

def readLoad : List String → Option (Load K)
  | [nset, dof, value] => do
      let dof ← dof.toNat?
      let value ← parse value
      pure ⟨nset, dof, value⟩
  | _ => none

def readSupport : List String → Option Support
  | [nset, first, last] => do
      let first ← first.toNat?
      let last ← last.toNat?
      pure ⟨nset, first, last⟩
  | _ => none

def addNodes (model : Model K) (records : List (List String)) : Option (Model K) := do
  let nodes ← records.mapM (readNode parse)
  some { model with nodes := model.nodes ++ nodes }

def addElements (model : Model K) (records : List (List String)) :
    List String → Option (Model K)
  | [type, elset] => do
      let type ← param "TYPE" type
      let elset ← param "ELSET" elset
      let elements ← records.mapM (readElement type elset)
      some { model with
        elsets := model.elsets ++ [elset]
        elements := model.elements ++ elements }
  | _ => none

def addNset (model : Model K) (records : List (List String)) : List String → Option (Model K)
  | [name] => do
      let name ← param "NSET" name
      let ids ← records.mapM fun ids => ids.mapM String.toNat?
      some { model with nsets := model.nsets ++ [(name, ids.flatten)] }
  | _ => none

def addMaterial (model : Model K) : List String → Option (Model K)
  | [name] => do
      let name ← param "NAME" name
      some { model with materials := ⟨name, none, none⟩ :: model.materials }
  | _ => none

def addElastic (model : Model K) (records : List (List String)) : Option (Model K) :=
  -- of the material that was named last
  match model.materials, records with
  | material :: materials, [[young, poisson]] => do
      let young ← parse young
      let poisson ← parse poisson
      some { model with
        materials := { material with elastic := some (young, poisson) } :: materials }
  | _, _ => none

def addDensity (model : Model K) (records : List (List String)) : Option (Model K) :=
  match model.materials, records with
  | material :: materials, [[density]] => do
      let density ← parse density
      some { model with materials := { material with density := some density } :: materials }
  | _, _ => none

def addSection (model : Model K) : List String → Option (Model K)
  | [elset, material] => do
      let elset ← param "ELSET" elset
      let material ← param "MATERIAL" material
      if elset ∈ model.elsets ∧ material ∈ model.materials.map MaterialData.name then
        some { model with sections := model.sections ++ [(elset, material)] }
      else none
  | _ => none

def addSupports (model : Model K) (records : List (List String)) : Option (Model K) := do
  let supports ← records.mapM readSupport
  if ∀ support ∈ supports, model.HasNset support.nset then
    some { model with supports := model.supports ++ supports }
  else none

def beginStep (model : Model K) : Option (Model K) :=
  -- steps do not nest
  if model.inStep then none else some { model with inStep := true }

def endStep (model : Model K) : Option (Model K) :=
  if model.inStep then some { model with inStep := false } else none

def addProcedure (model : Model K) (procedure : Procedure) : Option (Model K) :=
  if model.inStep ∧ model.procedure = none then some { model with procedure := some procedure }
  else none

def addFrequency (model : Model K) : List (List String) → Option (Model K)
  | [[numModes]] => do
      let numModes ← numModes.toNat?
      addProcedure model (.frequency numModes)
  | _ => none

def addLoads (model : Model K) (records : List (List String)) : Option (Model K) := do
  let loads ← records.mapM (readLoad parse)
  if model.inStep ∧ ∀ load ∈ loads, model.HasNset load.nset then
    some { model with loads := model.loads ++ loads }
  else none

def addNodeRequests (model : Model K) (records : List (List String)) :
    List String → Option (Model K)
  | [nset, ""] => do
      let nset ← param "NSET" nset
      if model.inStep ∧ model.HasNset nset then
        some { model with requests := model.requests ++ records.map fun fs => (nset, fs) }
      else none
  | _ => none

def addElementRequests (model : Model K) (records : List (List String)) :
    List String → Option (Model K)
  | [elset, ""] => do
      let elset ← param "ELSET" elset
      if model.inStep ∧ elset ∈ model.elsets then
        some { model with requests := model.requests ++ records.map fun fs => (elset, fs) }
      else none
  | _ => none

/-- The model with one more card. -/
def addCard (model : Model K) (card : Card) : Option (Model K) :=
  match card.keyword with
  | [] => none
  | name :: params =>
      if name = "*NODE" then addNodes parse model card.records
      else if name = "*ELEMENT" then addElements model card.records params
      else if name = "*NSET" then addNset model card.records params
      else if name = "*MATERIAL" then addMaterial model params
      else if name = "*ELASTIC" then addElastic parse model card.records
      else if name = "*DENSITY" then addDensity parse model card.records
      else if name = "*SOLID SECTION" then addSection model params
      else if name = "*BOUNDARY" then addSupports model card.records
      else if name = "*STEP" then beginStep model
      else if name = "*END STEP" then endStep model
      else if name = "*STATIC" then addProcedure model .static
      else if name = "*FREQUENCY" then addFrequency model card.records
      else if name = "*CLOAD" then addLoads parse model card.records
      else if name = "*NODE PRINT" then addNodeRequests model card.records params
      else if name = "*EL PRINT" then addElementRequests model card.records params
      else none

/-- What the text of a deck says, if it is well formed. -/
def readModel (text : String) : Option (Model K) := do
  let model ← (CardText.read text).foldlM (addCard parse) {}
  if model.inStep then none else some model

end Read

/-! ### What the decks should say -/

section Says

variable (mesh : MeshData K) (material : Material K)

/-- Nodes and elements are numbered from one. -/
def modelNodes : List (ℕ × K × K × K) := mesh.nodes.zipIdx.map fun e => (e.2 + 1, e.1)

def modelElements : List Element :=
  mesh.elements.zipIdx.map fun e => ⟨e.2 + 1, mesh.elementType, "EALL", e.1⟩

def cantileverModel (tipForce : K) (fixedIds tipIds : List ℕ) : Model K where
  nodes := modelNodes mesh
  elsets := ["EALL"]
  elements := modelElements mesh
  nsets := [("NALL", allNodeIds mesh), ("FIXED", fixedIds), ("TIP", tipIds)]
  materials := [⟨"MAT1", some (material.youngsModulus, material.poisson), none⟩]
  sections := [("EALL", "MAT1")]
  supports := [⟨"FIXED", 1, 3⟩]
  procedure := some .static
  loads := [⟨"TIP", 3, -forcePerNode tipForce tipIds⟩]
  requests := [("NALL", ["U"])]

def cantileverModalModel (numModes : ℕ) (fixedIds : List ℕ) : Model K where
  nodes := modelNodes mesh
  elsets := ["EALL"]
  elements := modelElements mesh
  nsets := [("NALL", allNodeIds mesh), ("FIXED", fixedIds)]
  materials := [⟨"MAT1", some (material.youngsModulus, material.poisson), some material.density⟩]
  sections := [("EALL", "MAT1")]
  supports := [⟨"FIXED", 1, 3⟩]
  procedure := some (.frequency numModes)

def cylinderModel (force : K) (boreIds outerIds : List ℕ) : Model K where
  nodes := modelNodes mesh
  elsets := ["EALL"]
  elements := modelElements mesh
  nsets := [("NALL", allNodeIds mesh), ("BORE", boreIds), ("OUTER", outerIds)]
  materials := [⟨"MAT1", some (material.youngsModulus, material.poisson), none⟩]
  sections := [("EALL", "MAT1")]
  supports := [⟨"NALL", 2, 2⟩]
  procedure := some .static
  loads := [⟨"BORE", 1, forcePerNode force boreIds⟩]
  requests := [("EALL", ["S"])]

end Says

/-! ### What each card adds -/

/-- A float that can be written and read back. -/
structure IsFloat (formatF64 : K → String) (parse : String → Option K) (x : K) : Prop where
  isField : IsField (formatF64 x)
  parse_format : parse (formatF64 x) = some x

theorem param_append (key value : String) : param key (" " ++ key ++ "=" ++ value) = some value := by
  simp [param, List.isPrefixOf_iff_prefix]

@[simp] theorem toNat?_toString (n : ℕ) : (toString n).toNat? = some n := Nat.toNat?_repr n

theorem mapM_map_eq_some {α β γ : Type} {f : β → Option γ} {g : α → β} {r : α → γ} :
    ∀ {xs : List α}, (∀ x ∈ xs, f (g x) = some (r x)) → (xs.map g).mapM f = some (xs.map r) := by
  intro xs
  induction xs with
  | nil => exact fun _ => rfl
  | cons x xs ih =>
      intro h
      obtain ⟨hx, hxs⟩ := List.forall_mem_cons.mp h
      rw [List.map_cons, List.mapM_cons, hx, ih hxs]
      rfl

theorem mapM_toNat? (ids : List ℕ) : (ids.map toString).mapM String.toNat? = some ids := by
  rw [mapM_map_eq_some fun id _ => toNat?_toString id]
  exact congrArg some (List.map_id ids)

section Cards

variable {formatF64 : K → String} {parse : String → Option K} {mesh : MeshData K}
  {material : Material K} (model : Model K)

theorem addCard_nodeCard
    (h : ∀ node ∈ mesh.nodes, IsFloat formatF64 parse node.1 ∧ IsFloat formatF64 parse node.2.1 ∧
      IsFloat formatF64 parse node.2.2) :
    addCard parse model (nodeCard formatF64 mesh.nodes)
      = some { model with nodes := model.nodes ++ modelNodes mesh } := by
  have hread : (nodeCard formatF64 mesh.nodes).records.mapM (readNode parse)
      = some (modelNodes mesh) := by
    refine mapM_map_eq_some fun e he => ?_
    obtain ⟨hx, hy, hz⟩ := h e.1 (List.fst_mem_of_mem_zipIdx he)
    simp only [readNode, toNat?_toString, hx.parse_format, hy.parse_format, hz.parse_format,
      Option.bind_eq_bind, Option.bind_some, Option.pure_def]
  show addNodes parse model (nodeCard formatF64 mesh.nodes).records = _
  rw [addNodes, hread]
  rfl

theorem addCard_elementCard :
    addCard parse model (elementCard mesh.elements mesh.elementType)
      = some { model with
          elsets := model.elsets ++ ["EALL"]
          elements := model.elements ++ modelElements mesh } := by
  have htype : param "TYPE" (" TYPE=" ++ mesh.elementType) = some mesh.elementType :=
    param_append "TYPE" mesh.elementType
  have helset : param "ELSET" " ELSET=EALL" = some "EALL" := param_append "ELSET" "EALL"
  have hread : (elementCard mesh.elements mesh.elementType).records.mapM
      (readElement mesh.elementType "EALL") = some (modelElements mesh) := by
    refine mapM_map_eq_some fun e _ => ?_
    simp only [readElement, toNat?_toString, mapM_toNat?, Option.bind_eq_bind, Option.bind_some,
      Option.pure_def]
  show addElements model (elementCard mesh.elements mesh.elementType).records
    [" TYPE=" ++ mesh.elementType, " ELSET=EALL"] = _
  simp only [addElements, htype, helset, hread, Option.bind_eq_bind, Option.bind_some]

theorem addCard_nsetCard (name : String) (nodeIds : List ℕ) :
    addCard parse model (nsetCard name nodeIds)
      = some { model with nsets := model.nsets ++ [(name, nodeIds)] } := by
  have hname : param "NSET" (" NSET=" ++ name) = some name := param_append "NSET" name
  have hread : ∃ ids, (nsetCard name nodeIds).records.mapM (fun ids => ids.mapM String.toNat?)
      = some ids ∧ ids.flatten = nodeIds := by
    by_cases hnil : nodeIds = []
    · exact ⟨[], by simp [nsetCard, hnil], hnil.symm⟩
    · refine ⟨[nodeIds], ?_, List.flatten_singleton⟩
      rw [nsetCard, if_neg hnil, List.mapM_cons, mapM_toNat?]
      rfl
  obtain ⟨ids, hread, rfl⟩ := hread
  show addNset model (nsetCard name ids.flatten).records [" NSET=" ++ name] = _
  simp only [addNset, hname, hread, Option.bind_eq_bind, Option.bind_some]

theorem foldlM_materialCards (hyoungs : IsFloat formatF64 parse material.youngsModulus)
    (hpoisson : IsFloat formatF64 parse material.poisson) :
    (materialCards formatF64 material).foldlM (addCard parse) model
      = some { model with
          materials := ⟨"MAT1", some (material.youngsModulus, material.poisson), none⟩
            :: model.materials } := by
  have hname : param "NAME" " NAME=MAT1" = some "MAT1" := param_append "NAME" "MAT1"
  have hmaterial : addCard parse model ⟨["*MATERIAL", " NAME=MAT1"], []⟩
      = some { model with materials := ⟨"MAT1", none, none⟩ :: model.materials } := by
    show addMaterial model [" NAME=MAT1"] = _
    simp only [addMaterial, hname, Option.bind_eq_bind, Option.bind_some]
  have helastic : addCard parse { model with materials := ⟨"MAT1", none, none⟩ :: model.materials }
      ⟨["*ELASTIC"], [[formatF64 material.youngsModulus, formatF64 material.poisson]]⟩
      = some { model with
          materials := ⟨"MAT1", some (material.youngsModulus, material.poisson), none⟩
            :: model.materials } := by
    show addElastic parse { model with materials := ⟨"MAT1", none, none⟩ :: model.materials }
      [[formatF64 material.youngsModulus, formatF64 material.poisson]] = _
    simp only [addElastic, hyoungs.parse_format, hpoisson.parse_format, Option.bind_eq_bind,
      Option.bind_some]
  simp only [materialCards, List.foldlM_cons, List.foldlM_nil, hmaterial, helastic,
    Option.bind_eq_bind, Option.bind_some, Option.pure_def]

theorem addCard_densityCard (hdensity : IsFloat formatF64 parse material.density)
    {described : MaterialData K} {others : List (MaterialData K)}
    (hmaterials : model.materials = described :: others) :
    addCard parse model (densityCard formatF64 material)
      = some { model with
          materials := { described with density := some material.density } :: others } := by
  show addDensity parse model [[formatF64 material.density]] = _
  simp only [addDensity, hmaterials, hdensity.parse_format, Option.bind_eq_bind, Option.bind_some]

theorem addCard_solidSectionCard (parse : String → Option K) (helset : "EALL" ∈ model.elsets)
    (hmaterial : "MAT1" ∈ model.materials.map MaterialData.name) :
    addCard parse model solidSectionCard
      = some { model with sections := model.sections ++ [("EALL", "MAT1")] } := by
  have helsetName : param "ELSET" " ELSET=EALL" = some "EALL" := param_append "ELSET" "EALL"
  have hmaterialName : param "MATERIAL" " MATERIAL=MAT1" = some "MAT1" :=
    param_append "MATERIAL" "MAT1"
  show addSection model [" ELSET=EALL", " MATERIAL=MAT1"] = _
  simp only [addSection, helsetName, hmaterialName, Option.bind_eq_bind, Option.bind_some,
    if_pos (And.intro helset hmaterial)]

theorem addCard_boundary (parse : String → Option K) {name : String} (first last : ℕ)
    (hname : model.HasNset name) :
    addCard parse model (setCard "*BOUNDARY" name (toString first) (toString last))
      = some { model with supports := model.supports ++ [⟨name, first, last⟩] } := by
  have hread : [[name, toString first, toString last]].mapM readSupport
      = some [⟨name, first, last⟩] := by
    simp only [List.mapM_cons, List.mapM_nil, readSupport, toNat?_toString, Option.bind_eq_bind,
      Option.bind_some, Option.pure_def]
  show addSupports model [[name, toString first, toString last]] = _
  simp only [addSupports, hread, Option.bind_eq_bind, Option.bind_some,
    List.forall_mem_singleton, if_pos hname]

theorem addCard_cload {name : String} (dof : ℕ) {value : K} (hstep : model.inStep = true)
    (hname : model.HasNset name) (hvalue : IsFloat formatF64 parse value) :
    addCard parse model (setCard "*CLOAD" name (toString dof) (formatF64 value))
      = some { model with loads := model.loads ++ [⟨name, dof, value⟩] } := by
  have hread : [[name, toString dof, formatF64 value]].mapM (readLoad parse)
      = some [⟨name, dof, value⟩] := by
    simp only [List.mapM_cons, List.mapM_nil, readLoad, toNat?_toString, hvalue.parse_format,
      Option.bind_eq_bind, Option.bind_some, Option.pure_def]
  show addLoads parse model [[name, toString dof, formatF64 value]] = _
  simp only [addLoads, hread, Option.bind_eq_bind, Option.bind_some,
    List.forall_mem_singleton, if_pos (And.intro hstep hname)]

theorem addCard_nodePrint (name field : String) (hstep : model.inStep = true)
    (hname : model.HasNset name) :
    addCard parse model (printCard "*NODE PRINT" (" NSET=" ++ name) field)
      = some { model with requests := model.requests ++ [(name, [field])] } := by
  have hparam : param "NSET" (" NSET=" ++ name) = some name := param_append "NSET" name
  show addNodeRequests model [[field]] [" NSET=" ++ name, ""] = _
  simp only [addNodeRequests, hparam, Option.bind_eq_bind, Option.bind_some,
    if_pos (And.intro hstep hname), List.map_singleton]

theorem addCard_elPrint (name field : String) (hstep : model.inStep = true)
    (hname : name ∈ model.elsets) :
    addCard parse model (printCard "*EL PRINT" (" ELSET=" ++ name) field)
      = some { model with requests := model.requests ++ [(name, [field])] } := by
  have hparam : param "ELSET" (" ELSET=" ++ name) = some name := param_append "ELSET" name
  show addElementRequests model [[field]] [" ELSET=" ++ name, ""] = _
  simp only [addElementRequests, hparam, Option.bind_eq_bind, Option.bind_some,
    if_pos (And.intro hstep hname), List.map_singleton]

theorem foldlM_staticStepCards {cload output : Card} {model₁ model₂ : Model K}
    (hstep : model.inStep = false) (hprocedure : model.procedure = none)
    (hcload : addCard parse { model with inStep := true, procedure := some .static } cload
      = some model₁)
    (houtput : addCard parse model₁ output = some model₂) (hin : model₂.inStep = true) :
    (staticStepCards [cload] [output]).foldlM (addCard parse) model
      = some { model₂ with inStep := false } := by
  have hbegin : addCard parse model ⟨["*STEP"], []⟩ = some { model with inStep := true } := by
    show beginStep model = _
    simp only [beginStep, hstep, Bool.false_eq_true, if_false]
  have hstatic : addCard parse { model with inStep := true } ⟨["*STATIC"], []⟩
      = some { model with inStep := true, procedure := some .static } := by
    show addProcedure { model with inStep := true } .static = _
    simp only [addProcedure, hprocedure, and_self, if_true]
  have hend : addCard parse model₂ ⟨["*END STEP"], []⟩ = some { model₂ with inStep := false } := by
    show endStep model₂ = _
    simp only [endStep, hin, if_true]
  simp only [staticStepCards, List.cons_append, List.nil_append,
    List.foldlM_cons, List.foldlM_nil, hbegin, hstatic, hcload, houtput, hend,
    Option.bind_eq_bind, Option.bind_some, Option.pure_def]

theorem foldlM_modalStepCards (numModes : ℕ) (hstep : model.inStep = false)
    (hprocedure : model.procedure = none) :
    (modalStepCards numModes).foldlM (addCard parse) model
      = some { model with inStep := false, procedure := some (.frequency numModes) } := by
  show (beginStep model).bind (fun m => (addFrequency m [[toString numModes]]).bind fun m =>
    (endStep m).bind some) = _
  simp only [beginStep, addFrequency, addProcedure, endStep, hstep, hprocedure, toNat?_toString,
    Bool.false_eq_true, if_false, and_self, if_true, Option.bind_eq_bind, Option.bind_some]

end Cards

/-! ### Decks are read as models -/

section Decks

variable (formatF64 : K → String) (parse : String → Option K) (mesh : MeshData K)
  (material : Material K)

/-- The type has no comma and no line feed in it, and the floats can be read
back. -/
structure Readable : Prop where
  typeComma : ',' ∉ mesh.elementType.toList
  typeBreak : '\n' ∉ mesh.elementType.toList
  nodes : ∀ node ∈ mesh.nodes, IsFloat formatF64 parse node.1 ∧
    IsFloat formatF64 parse node.2.1 ∧ IsFloat formatF64 parse node.2.2
  youngsModulus : IsFloat formatF64 parse material.youngsModulus
  poisson : IsFloat formatF64 parse material.poisson

variable {formatF64 parse mesh material}

theorem Readable.writable (h : Readable formatF64 parse mesh material) :
    Writable formatF64 mesh material where
  typeComma := h.typeComma
  typeBreak := h.typeBreak
  nodes := fun node hnode =>
    ⟨(h.nodes node hnode).1.isField, (h.nodes node hnode).2.1.isField,
      (h.nodes node hnode).2.2.isField⟩
  youngsModulus := h.youngsModulus.isField
  poisson := h.poisson.isField

/-- The model before the step. -/
def bodyModel (mesh : MeshData K) (nsets : List (String × List ℕ)) (described : MaterialData K)
    (support : Support) : Model K where
  nodes := modelNodes mesh
  elsets := ["EALL"]
  elements := modelElements mesh
  nsets := ("NALL", allNodeIds mesh) :: nsets
  materials := [described]
  sections := [("EALL", "MAT1")]
  supports := [support]

/-- The model before the material is described. -/
def meshModel (mesh : MeshData K) (nsets : List (String × List ℕ)) : Model K where
  nodes := modelNodes mesh
  elsets := ["EALL"]
  elements := modelElements mesh
  nsets := ("NALL", allNodeIds mesh) :: nsets

/-- The cards before the steps: the mesh, its sets and the material. -/
theorem foldlM_meshCards (h : Readable formatF64 parse mesh material)
    (nsets : List (String × List ℕ)) :
    (nodeCard formatF64 mesh.nodes :: elementCard mesh.elements mesh.elementType
        :: nsetCard "NALL" (allNodeIds mesh) :: nsets.map fun e => nsetCard e.1 e.2).foldlM
      (addCard parse) {} = some (meshModel mesh nsets) := by
  have hsets : ∀ (model : Model K) (nsets : List (String × List ℕ)),
      (nsets.map fun e => nsetCard e.1 e.2).foldlM (addCard parse) model
        = some { model with nsets := model.nsets ++ nsets } := by
    intro model nsets
    -- each set is added below the ones before it, whatever the model is
    induction nsets generalizing model with
    | nil => simp
    | cons e nsets ih =>
        simp only [List.map_cons, List.foldlM_cons, addCard_nsetCard, Option.bind_eq_bind,
          Option.bind_some, ih, List.append_assoc, List.singleton_append]
  simp only [List.foldlM_cons, addCard_nodeCard _ h.nodes, addCard_elementCard, addCard_nsetCard,
    Option.bind_eq_bind, Option.bind_some, hsets, List.nil_append, List.singleton_append, meshModel]

/-- The cards before the step. -/
theorem foldlM_bodyCards (h : Readable formatF64 parse mesh material)
    {nsets : List (String × List ℕ)} {cards : List Card} {described : MaterialData K}
    (hdescribed : described.name = "MAT1")
    (hcards : cards.foldlM (addCard parse) (meshModel mesh nsets)
      = some { meshModel mesh nsets with materials := [described] })
    {name : String} (first last : ℕ) (hname : name ∈ "NALL" :: nsets.map Prod.fst) :
    ((nodeCard formatF64 mesh.nodes :: elementCard mesh.elements mesh.elementType
        :: nsetCard "NALL" (allNodeIds mesh) :: nsets.map fun e => nsetCard e.1 e.2)
      ++ cards ++ [solidSectionCard,
        setCard "*BOUNDARY" name (toString first) (toString last)]).foldlM (addCard parse) {}
      = some (bodyModel mesh nsets described ⟨name, first, last⟩) := by
  have hmaterial : "MAT1" ∈ [described].map MaterialData.name := by
    rw [List.map_singleton, hdescribed]
    exact List.mem_singleton_self _
  have hsection := addCard_solidSectionCard { meshModel mesh nsets with materials := [described] }
    parse (List.mem_singleton_self _) hmaterial
  have hboundary := addCard_boundary
    { meshModel mesh nsets with materials := [described], sections := [("EALL", "MAT1")] }
    parse first last hname
  rw [List.foldlM_append, List.foldlM_append, foldlM_meshCards h nsets]
  simp only [Option.bind_eq_bind, Option.bind_some, hcards, List.foldlM_cons, List.foldlM_nil]
  rw [hsection]
  simp only [Option.bind_some, Option.pure_def]
  exact congrArg (·.bind some) hboundary

/-- The text of a deck is read card by card. -/
theorem readModel_eq_some {text : String} {body step : List Card} {before model : Model K}
    (hread : CardText.read text = body ++ step)
    (hbody : body.foldlM (addCard parse) {} = some before)
    (hstep : step.foldlM (addCard parse) before = some model) (hin : model.inStep = false) :
    readModel parse text = some model := by
  rw [readModel, hread, List.foldlM_append, hbody]
  simp only [Option.bind_eq_bind, Option.bind_some, hstep, hin, Bool.false_eq_true, if_false]

theorem readModel_cantileverDeck {tipForce : K} {fixedIds tipIds : List ℕ} {deck : String}
    (h : Readable formatF64 parse mesh material) (hfixed : mesh.nodeSets["FIXED"]? = some fixedIds)
    (htip : mesh.nodeSets["TIP"]? = some tipIds)
    (hforce : IsFloat formatF64 parse (-forcePerNode tipForce tipIds))
    (hdeck : buildCantileverDeck formatF64 mesh material tipForce = some deck) :
    readModel parse deck = some (cantileverModel mesh material tipForce fixedIds tipIds) := by
  have hbody := foldlM_bodyCards h rfl
    (foldlM_materialCards (meshModel mesh [("FIXED", fixedIds), ("TIP", tipIds)])
      h.youngsModulus h.poisson) 1 3 (show "FIXED" ∈ _ by simp)
  have hcload := addCard_cload
    { bodyModel mesh [("FIXED", fixedIds), ("TIP", tipIds)]
        ⟨"MAT1", some (material.youngsModulus, material.poisson), none⟩ ⟨"FIXED", 1, 3⟩ with
      inStep := true, procedure := some .static }
    3 rfl (show "TIP" ∈ _ by simp [bodyModel]) hforce
  exact readModel_eq_some (read_cantileverDeck h.writable hfixed htip hforce.isField hdeck) hbody
    (foldlM_staticStepCards _ rfl rfl hcload
      (addCard_nodePrint _ "NALL" "U" rfl (show "NALL" ∈ _ by simp [bodyModel])) rfl) rfl

theorem readModel_cantileverModalDeck {numModes : ℕ} {fixedIds : List ℕ} {deck : String}
    (h : Readable formatF64 parse mesh material)
    (hdensity : IsFloat formatF64 parse material.density)
    (hfixed : mesh.nodeSets["FIXED"]? = some fixedIds)
    (hdeck : buildCantileverModalDeck formatF64 mesh material numModes = some deck) :
    readModel parse deck = some (cantileverModalModel mesh material numModes fixedIds) := by
  have hmaterial : (materialCards formatF64 material ++ [densityCard formatF64 material]).foldlM
      (addCard parse) (meshModel mesh [("FIXED", fixedIds)])
        = some { meshModel mesh [("FIXED", fixedIds)] with
            materials := [⟨"MAT1", some (material.youngsModulus, material.poisson),
              some material.density⟩] } := by
    rw [List.foldlM_append, foldlM_materialCards _ h.youngsModulus h.poisson]
    simp only [Option.bind_eq_bind, Option.bind_some, List.foldlM_cons, List.foldlM_nil]
    rw [addCard_densityCard _ hdensity rfl]
    rfl
  have hbody := foldlM_bodyCards h rfl hmaterial 1 3 (show "FIXED" ∈ _ by simp)
  exact readModel_eq_some (read_cantileverModalDeck h.writable hdensity.isField hfixed hdeck) hbody
    (foldlM_modalStepCards _ numModes rfl rfl) rfl

theorem readModel_cylinderDeck {pi pressure : K} {boreIds outerIds : List ℕ}
    {boreCoords : List (K × K × K)} {deck : String} (h : Readable formatF64 parse mesh material)
    (hbore : mesh.nodeSets["BORE"]? = some boreIds)
    (houter : mesh.nodeSets["OUTER"]? = some outerIds)
    (hcoords : boreIds.mapM (nodeOf mesh) = some boreCoords)
    (hforce : IsFloat formatF64 parse (forcePerNode (boreForce pi pressure boreCoords) boreIds))
    (hdeck : buildCylinderDeck formatF64 pi mesh material pressure = some deck) :
    readModel parse deck = some (cylinderModel mesh material (boreForce pi pressure boreCoords)
      boreIds outerIds) := by
  have hbody := foldlM_bodyCards h rfl
    (foldlM_materialCards (meshModel mesh [("BORE", boreIds), ("OUTER", outerIds)])
      h.youngsModulus h.poisson) 2 2 (show "NALL" ∈ _ by simp)
  have hcload := addCard_cload
    { bodyModel mesh [("BORE", boreIds), ("OUTER", outerIds)]
        ⟨"MAT1", some (material.youngsModulus, material.poisson), none⟩ ⟨"NALL", 2, 2⟩ with
      inStep := true, procedure := some .static }
    1 rfl (show "BORE" ∈ _ by simp [bodyModel]) hforce
  exact readModel_eq_some
    (read_cylinderDeck h.writable hbore houter hcoords hforce.isField hdeck) hbody
    (foldlM_staticStepCards _ rfl rfl hcload
      (addCard_elPrint _ "EALL" "S" rfl (show "EALL" ∈ _ by simp [bodyModel])) rfl) rfl

end Decks

/-! ### Loads -/

section Loads

variable [IsStrictOrderedRing K]

/-- A force split evenly over distinct nodes is the force. -/
theorem sum_forcePerNode {ids all : List ℕ} (force : K) (hall : all.Nodup) (hids : ids.Nodup)
    (hne : ids ≠ []) (hsub : ∀ id ∈ ids, id ∈ all) :
    (all.map fun id => if id ∈ ids then forcePerNode force ids else 0).sum = force := by
  have hlength : ids.length ≠ 0 := by rwa [Ne, List.length_eq_zero_iff]
  have hinter : all.toFinset ∩ ids.toFinset = ids.toFinset :=
    Finset.inter_eq_right.mpr fun id hid =>
      List.mem_toFinset.mpr (hsub id (List.mem_toFinset.mp hid))
  have hsum : ∑ id ∈ all.toFinset, (if id ∈ ids.toFinset then forcePerNode force ids else 0)
      = ids.length * forcePerNode force ids := by
    rw [Finset.sum_ite_mem, hinter, Finset.sum_const, List.toFinset_card_of_nodup hids,
      nsmul_eq_mul]
  -- the nodes are distinct, so the sum over the list is one over a set
  calc (all.map fun id => if id ∈ ids then forcePerNode force ids else 0).sum
      = ∑ id ∈ all.toFinset, (if id ∈ ids.toFinset then forcePerNode force ids else 0) := by
        rw [List.sum_toFinset _ hall]
        simp only [List.mem_toFinset]
    _ = ids.length * forcePerNode force ids := hsum
    _ = force := by
        rw [forcePerNode, if_pos hlength, mul_div_cancel₀]
        exact Nat.cast_ne_zero.mpr hlength

theorem forcePerNode_neg (force : K) (ids : List ℕ) :
    forcePerNode (-force) ids = -forcePerNode force ids := by
  rw [forcePerNode, forcePerNode]
  split
  · exact neg_div _ _
  · exact neg_zero.symm

theorem modelNodes_map_fst (mesh : MeshData K) : (modelNodes mesh).map Prod.fst = allNodeIds mesh := by
  have hids := congrArg (List.map (· + 1)) (List.zipIdx_map_snd 0 mesh.nodes)
  rw [List.map_map, ← List.range_eq_range'] at hids
  rw [modelNodes, allNodeIds, List.map_map, ← hids]
  rfl

theorem allNodeIds_nodup (mesh : MeshData K) : (allNodeIds mesh).Nodup :=
  List.Nodup.map (fun _ _ h => Nat.succ.inj h) List.nodup_range

/-- One load on one set. -/
theorem totalLoad_single {model : Model K} {mesh : MeshData K} {name : String} {ids : List ℕ}
    {dof : ℕ} {force : K} (hnodes : model.nodes = modelNodes mesh)
    (hloads : model.loads = [⟨name, dof, forcePerNode force ids⟩]) (hset : model.nset name = ids)
    (hids : ids.Nodup) (hne : ids ≠ []) (hsub : ∀ id ∈ ids, id ∈ allNodeIds mesh) (d : ℕ) :
    model.totalLoad d = if d = dof then force else 0 := by
  have hat : ∀ id, model.loadAt d id
      = if d = dof then (if id ∈ ids then forcePerNode force ids else 0) else 0 := by
    intro id
    rw [Model.loadAt, hloads, List.map_singleton, List.sum_singleton, hset, ite_and]
    simp only [eq_comm]
  have hmap : model.nodes.map (fun node => model.loadAt d node.1)
      = (allNodeIds mesh).map fun id => model.loadAt d id := by
    rw [hnodes, ← modelNodes_map_fst, List.map_map]
    rfl
  rw [Model.totalLoad, hmap]
  by_cases hd : d = dof
  · simp only [hat, if_pos hd]
    exact sum_forcePerNode force (allNodeIds_nodup mesh) hids hne hsub
  · simp [hat, if_neg hd]

/-- **The cantilever deck**: it is read as the mesh with its material, fixed at
`FIXED`, and the forces on the nodes of `TIP` sum to the tip force, downwards. -/
theorem cantileverDeck_says {formatF64 : K → String} {parse : String → Option K}
    {mesh : MeshData K} {material : Material K} {tipForce : K} {fixedIds tipIds : List ℕ}
    (h : Readable formatF64 parse mesh material) (hfixed : mesh.nodeSets["FIXED"]? = some fixedIds)
    (htip : mesh.nodeSets["TIP"]? = some tipIds)
    (hforce : IsFloat formatF64 parse (-forcePerNode tipForce tipIds))
    (hids : tipIds.Nodup) (hne : tipIds ≠ []) (hsub : ∀ id ∈ tipIds, id ∈ allNodeIds mesh) :
    ∃ deck, buildCantileverDeck formatF64 mesh material tipForce = some deck ∧
      readModel parse deck = some (cantileverModel mesh material tipForce fixedIds tipIds) ∧
      ∀ dof, (cantileverModel mesh material tipForce fixedIds tipIds).totalLoad dof
        = if dof = 3 then -tipForce else 0 := by
  have hsome : (buildCantileverDeck formatF64 mesh material tipForce).isSome := by
    simp [buildCantileverDeck, hfixed, htip]
  obtain ⟨deck, hdeck⟩ := Option.isSome_iff_exists.mp hsome
  refine ⟨deck, hdeck, readModel_cantileverDeck h hfixed htip hforce hdeck, fun dof => ?_⟩
  have hloads : (cantileverModel mesh material tipForce fixedIds tipIds).loads
      = [⟨"TIP", 3, forcePerNode (-tipForce) tipIds⟩] := by
    rw [forcePerNode_neg]
    rfl
  have hset : (cantileverModel mesh material tipForce fixedIds tipIds).nset "TIP" = tipIds := by
    simp [Model.nset, cantileverModel]
  exact totalLoad_single rfl hloads hset hids hne hsub dof

/-- A bore of one radius. -/
theorem boreExtent_eq {coords : List (K × K × K)} {r bottom top : K}
    (hr : ∀ coord ∈ coords, coord.1 = r)
    (hz : ∀ coord ∈ coords, bottom ≤ coord.2.1 ∧ coord.2.1 ≤ top)
    (hbottom : ∃ coord ∈ coords, coord.2.1 = bottom) (htop : ∃ coord ∈ coords, coord.2.1 = top) :
    boreExtent coords = (r, top - bottom) := by
  obtain ⟨low, hlow, rfl⟩ := hbottom
  obtain ⟨high, hhigh, rfl⟩ := htop
  have hmem : ∀ coord ∈ coords, coord.2.1 ∈ coords.map fun coord => coord.2.1 :=
    fun coord => List.mem_map_of_mem
  have hmax : (coords.map fun coord => coord.2.1).max? = some high.2.1 :=
    List.max?_eq_some_iff.mpr ⟨hmem high hhigh, List.forall_mem_map.mpr fun coord h => (hz coord h).2⟩
  have hmin : (coords.map fun coord => coord.2.1).min? = some low.2.1 :=
    List.min?_eq_some_iff.mpr ⟨hmem low hlow, List.forall_mem_map.mpr fun coord h => (hz coord h).1⟩
  have hsum : (coords.map fun coord => coord.1).sum = coords.length * r := by
    rw [List.sum_eq_card_nsmul _ r (List.forall_mem_map.mpr hr), List.length_map, nsmul_eq_mul]
  have hlength : (coords.length : K) ≠ 0 :=
    Nat.cast_ne_zero.mpr (Nat.pos_iff_ne_zero.mp (List.length_pos_of_mem hlow))
  obtain ⟨z, zValues, hvalues⟩ := List.exists_cons_of_ne_nil (List.ne_nil_of_mem (hmem low hlow))
  rw [hvalues] at hmax hmin
  rw [boreExtent, hvalues, hsum, mul_div_cancel_left₀ _ hlength]
  exact congrArg (Prod.mk r) (congrArg₂ (· - ·) (Option.some.inj hmax) (Option.some.inj hmin))

theorem nodeOf_isSome {mesh : MeshData K} {id : ℕ} (h : id ∈ allNodeIds mesh) :
    (nodeOf mesh id).isSome := by
  obtain ⟨i, hi, rfl⟩ := List.mem_map.mp h
  rw [nodeOf, if_neg (Nat.succ_ne_zero i)]
  simpa using List.mem_range.mp hi

/-- The coordinates of nodes that are there. -/
theorem mapM_nodeOf {mesh : MeshData K} {ids : List ℕ} (h : ∀ id ∈ ids, id ∈ allNodeIds mesh) :
    ∃ coords, ids.mapM (nodeOf mesh) = some coords ∧
      (∀ coord ∈ coords, ∃ id ∈ ids, nodeOf mesh id = some coord) ∧
      ∀ id ∈ ids, ∃ coord ∈ coords, nodeOf mesh id = some coord := by
  let coordOf := fun id => (nodeOf mesh id).getD (0, 0, 0)
  have hcoord : ∀ id ∈ ids, nodeOf mesh id = some (coordOf id) := by
    intro id hid
    obtain ⟨coord, hcoord⟩ := Option.isSome_iff_exists.mp (nodeOf_isSome (h id hid))
    show _ = some ((nodeOf mesh id).getD _)
    rw [hcoord, Option.getD_some]
  refine ⟨ids.map coordOf, ?_, ?_, fun id hid => ⟨_, List.mem_map_of_mem hid, hcoord id hid⟩⟩
  · have hmap := mapM_map_eq_some (g := fun id => id) hcoord
    rwa [List.map_id'] at hmap
  · refine List.forall_mem_map.mpr fun id hid => ⟨id, hid, hcoord id hid⟩

/-- **The cylinder deck**: it is read as the mesh with its material, held in the
axial direction at every node, and on a bore of radius `r` the forces on the
nodes of `BORE` sum to the pressure on its surface. -/
theorem cylinderDeck_says {formatF64 : K → String} {parse : String → Option K}
    {mesh : MeshData K} {material : Material K} {pi pressure r bottom top : K}
    {boreIds outerIds : List ℕ} (h : Readable formatF64 parse mesh material)
    (hbore : mesh.nodeSets["BORE"]? = some boreIds)
    (houter : mesh.nodeSets["OUTER"]? = some outerIds)
    (hids : boreIds.Nodup) (hsub : ∀ id ∈ boreIds, id ∈ allNodeIds mesh)
    (hr : ∀ id ∈ boreIds, ∀ node, nodeOf mesh id = some node →
      node.1 = r ∧ bottom ≤ node.2.1 ∧ node.2.1 ≤ top)
    (hbottom : ∃ id ∈ boreIds, (nodeOf mesh id).map (·.2.1) = some bottom)
    (htop : ∃ id ∈ boreIds, (nodeOf mesh id).map (·.2.1) = some top)
    (hforce : IsFloat formatF64 parse
      (forcePerNode (pressure * (2 * pi * r) * (top - bottom)) boreIds)) :
    ∃ deck model, buildCylinderDeck formatF64 pi mesh material pressure = some deck ∧
      readModel parse deck = some model ∧
      model = cylinderModel mesh material (pressure * (2 * pi * r) * (top - bottom)) boreIds
        outerIds ∧
      ∀ dof, model.totalLoad dof
        = if dof = 1 then pressure * (2 * pi * r) * (top - bottom) else 0 := by
  -- the builder looks the nodes up by id; what holds of the nodes holds of what it found
  obtain ⟨coords, hcoords, hfrom, hto⟩ := mapM_nodeOf hsub
  have hat : ∀ coord ∈ coords, coord.1 = r ∧ bottom ≤ coord.2.1 ∧ coord.2.1 ≤ top := by
    intro coord hcoord
    obtain ⟨id, hid, hnode⟩ := hfrom coord hcoord
    exact hr id hid coord hnode
  have hreached : ∀ z, (∃ id ∈ boreIds, (nodeOf mesh id).map (·.2.1) = some z) →
      ∃ coord ∈ coords, coord.2.1 = z := by
    rintro z ⟨id, hid, hz⟩
    obtain ⟨coord, hcoord, hnode⟩ := hto id hid
    rw [hnode] at hz
    exact ⟨coord, hcoord, Option.some.inj hz⟩
  have hextent := boreExtent_eq (fun coord h => (hat coord h).1) (fun coord h => (hat coord h).2)
    (hreached bottom hbottom) (hreached top htop)
  have htotal : boreForce pi pressure coords = pressure * (2 * pi * r) * (top - bottom) := by
    have htwo : (2.0 : K) = 2 := by norm_num
    rw [boreForce, hextent, htwo]
  have hne : boreIds ≠ [] := by
    obtain ⟨id, hid, -⟩ := hbottom
    exact List.ne_nil_of_mem hid
  rw [← htotal] at hforce ⊢
  have hsome : (buildCylinderDeck formatF64 pi mesh material pressure).isSome := by
    simp [buildCylinderDeck, hbore, houter, hcoords]
  obtain ⟨deck, hdeck⟩ := Option.isSome_iff_exists.mp hsome
  have hset : (cylinderModel mesh material (boreForce pi pressure coords) boreIds outerIds).nset
      "BORE" = boreIds := by
    simp [Model.nset, cylinderModel]
  exact ⟨deck, _, hdeck, readModel_cylinderDeck h hbore houter hcoords hforce hdeck, rfl,
    fun dof => totalLoad_single rfl rfl hset hids hne hsub dof⟩

end Loads

/-! ### A beam and a tube -/

/-- Whole numbers, as the shortest text that reads back. -/
def wholeText (x : ℚ) : String := toString x.num ++ ".0"

def digitsValue (digits : List Char) : ℚ :=
  (digits.takeWhile Char.isDigit).foldl (fun n c => 10 * n + (c.toNat - 48 : ℕ)) 0

def parseWhole (text : String) : Option ℚ :=
  if ['.', '0'] <:+ text.toList then
    match text.toList with
    | '-' :: digits => some (-digitsValue digits)
    | digits => some (digitsValue digits)
  else none

def steel : Material ℚ := ⟨200000000000, 0, 7850⟩

/-- One brick of 20 nodes: the corners, then the middles of the edges. -/
def beamMesh : MeshData ℚ where
  elementType := "C3D20"
  nodes := [(0, 0, 0), (2, 0, 0), (2, 2, 0), (0, 2, 0), (0, 0, 2), (2, 0, 2), (2, 2, 2), (0, 2, 2),
    (1, 0, 0), (2, 1, 0), (1, 2, 0), (0, 1, 0), (1, 0, 2), (2, 1, 2), (1, 2, 2), (0, 1, 2),
    (0, 0, 1), (2, 0, 1), (2, 2, 1), (0, 2, 1)]
  elements := [[1, 2, 3, 4, 5, 6, 7, 8, 9, 10, 11, 12, 13, 14, 15, 16, 17, 18, 19, 20]]
  nodeSets := OrdMap.ofFn ["FIXED", "TIP"] fun name =>
    if name = "FIXED" then [1, 4, 5, 8, 12, 16, 17, 20] else [2, 3, 6, 7, 10, 14, 18, 19]

def wholeValues : List ℚ := [0, 1, 2, 100, 200000000000, -100]

theorem isFloat_whole : ∀ x ∈ wholeValues, IsFloat wholeText parseWhole x := by
  have h : ∀ x ∈ wholeValues, IsField (wholeText x) ∧ parseWhole (wholeText x) = some x := by
    decide +kernel
  exact fun x hx => ⟨(h x hx).1, (h x hx).2⟩

/-- A mesh of steel whose coordinates are among these values. -/
theorem readable_steel {mesh : MeshData ℚ} (hcomma : ',' ∉ mesh.elementType.toList)
    (hbreak : '\n' ∉ mesh.elementType.toList)
    (hnodes : ∀ node ∈ mesh.nodes,
      node.1 ∈ wholeValues ∧ node.2.1 ∈ wholeValues ∧ node.2.2 ∈ wholeValues) :
    Readable wholeText parseWhole mesh steel where
  typeComma := hcomma
  typeBreak := hbreak
  nodes := fun node hnode => ⟨isFloat_whole _ (hnodes node hnode).1,
    isFloat_whole _ (hnodes node hnode).2.1, isFloat_whole _ (hnodes node hnode).2.2⟩
  youngsModulus := isFloat_whole _ (by decide)
  poisson := isFloat_whole _ (by decide)

theorem cantileverDeck_says_beam :
    ∃ deck, buildCantileverDeck wholeText beamMesh steel 800 = some deck ∧
      readModel parseWhole deck = some (cantileverModel beamMesh steel 800
        [1, 4, 5, 8, 12, 16, 17, 20] [2, 3, 6, 7, 10, 14, 18, 19]) ∧
      (cantileverModel beamMesh steel 800 [1, 4, 5, 8, 12, 16, 17, 20]
        [2, 3, 6, 7, 10, 14, 18, 19]).totalLoad 3 = -800 := by
  have hfixed : beamMesh.nodeSets["FIXED"]? = some [1, 4, 5, 8, 12, 16, 17, 20] := by
    simp [beamMesh, OrdMap.getElem?_ofFn]
  have htip : beamMesh.nodeSets["TIP"]? = some [2, 3, 6, 7, 10, 14, 18, 19] := by
    simp [beamMesh, OrdMap.getElem?_ofFn]
  have hforce : IsFloat wholeText parseWhole
      (-forcePerNode 800 [2, 3, 6, 7, 10, 14, 18, 19]) := by
    rw [show -forcePerNode (800 : ℚ) [2, 3, 6, 7, 10, 14, 18, 19] = -100 by norm_num [forcePerNode]]
    exact isFloat_whole _ (by decide)
  have hreadable : Readable wholeText parseWhole beamMesh steel :=
    readable_steel (by decide) (by decide) (by decide)
  obtain ⟨deck, hdeck, hread, htotal⟩ := cantileverDeck_says hreadable hfixed htip hforce
    (by decide) (by decide) (by decide)
  exact ⟨deck, hdeck, hread, htotal 3⟩

/-- One quadrilateral of 8 nodes; `x` is the radius and `y` the axis. -/
def tubeMesh : MeshData ℚ where
  elementType := "CAX8"
  nodes := [(1, 0, 0), (2, 0, 0), (2, 2, 0), (1, 2, 0), (1, 1, 0), (2, 1, 0), (2, 0, 0), (2, 2, 0)]
  elements := [[1, 2, 3, 4, 5, 6, 7, 8]]
  nodeSets := OrdMap.ofFn ["BORE", "OUTER"] fun name =>
    if name = "BORE" then [1, 4, 5] else [2, 3, 6]

/-- `math.pi`. -/
def mathPi : ℚ := 884279719003555 / 281474976710656

theorem cylinderDeck_says_tube :
    ∃ deck model, buildCylinderDeck wholeText mathPi tubeMesh steel (75 / mathPi) = some deck ∧
      readModel parseWhole deck = some model ∧
      model = cylinderModel tubeMesh steel (75 / mathPi * (2 * mathPi * 1) * (2 - 0)) [1, 4, 5]
        [2, 3, 6] ∧
      model.totalLoad 1 = 300 := by
  have hbore : tubeMesh.nodeSets["BORE"]? = some [1, 4, 5] := by
    simp [tubeMesh, OrdMap.getElem?_ofFn]
  have houter : tubeMesh.nodeSets["OUTER"]? = some [2, 3, 6] := by
    simp [tubeMesh, OrdMap.getElem?_ofFn]
  have hr : ∀ id ∈ [1, 4, 5], ∀ node, nodeOf tubeMesh id = some node →
      node.1 = 1 ∧ (0 : ℚ) ≤ node.2.1 ∧ node.2.1 ≤ 2 := by
    have h : ∀ id ∈ [1, 4, 5], ∀ node ∈ nodeOf tubeMesh id,
        node.1 = 1 ∧ (0 : ℚ) ≤ node.2.1 ∧ node.2.1 ≤ 2 := by decide
    exact fun id hid node hnode => h id hid node hnode
  have htotal : 75 / mathPi * (2 * mathPi * 1) * (2 - 0) = 300 := by norm_num [mathPi]
  have hforce : IsFloat wholeText parseWhole
      (forcePerNode (75 / mathPi * (2 * mathPi * 1) * (2 - 0)) [1, 4, 5]) := by
    rw [htotal, show forcePerNode (300 : ℚ) [1, 4, 5] = 100 by norm_num [forcePerNode]]
    exact isFloat_whole _ (by decide)
  have hreadable : Readable wholeText parseWhole tubeMesh steel :=
    readable_steel (by decide) (by decide) (by decide)
  obtain ⟨deck, model, hdeck, hread, hmodel, hload⟩ := cylinderDeck_says hreadable hbore houter
    (by decide) (by decide) hr ⟨1, by decide, by decide⟩ ⟨4, by decide, by decide⟩ hforce
  exact ⟨deck, model, hdeck, hread, hmodel, (hload 1).trans htotal⟩

end FeaDeck

end Feldspar

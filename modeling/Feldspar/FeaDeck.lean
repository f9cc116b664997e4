/-
Feldspar/FeaDeck.lean

The decks that are handed to the finite-element solver (`fea/deck.py`).

A deck is text.  Each builder joins blocks of cards, and a record with more
than sixteen items goes on in the next line (`_chunk_line`).  Every block is
read back as the cards it was made of (`isBlock_nodeBlock` and the others),
provided that a formatted float is a field.
-/
import Feldspar.Lib.CardText
import Feldspar.Lib.OrdMap
import Mathlib.Algebra.Order.Field.Basic
import Mathlib.Algebra.BigOperators.Group.List.Basic
import Mathlib.Data.Rat.Cast.OfScientific
import Std.Data.String.ToNat

set_option linter.unusedSectionVars false

namespace Feldspar

namespace FeaDeck

open CardText (Card IsField IsBlock IsKeywordLine Wraps)

variable {K : Type} [Field K] [LinearOrder K]

/-! ### Meshes and materials -/

structure Material (K : Type) where
  youngsModulus : K
  poisson : K
  density : K

/-- Node `i` of the list has the id `i + 1`. -/
structure MeshData (K : Type) where
  elementType : String
  nodes : List (K × K × K)
  elements : List (List ℕ)
  nodeSets : OrdMap.Map String (List ℕ)

/-! ### Blocks -/

/-- `_MAX_ITEMS_PER_LINE`. -/
def maxItemsPerLine : ℕ := 16

/-- The lines of `_chunk_line`, one for each `start` in steps of 16. -/
def chunkLines (items : List String) : List String :=
  (List.range ((items.length + 15) / maxItemsPerLine)).map fun i =>
    let start := maxItemsPerLine * i
    let chunk := (items.drop start).take maxItemsPerLine
    let isLast := start + maxItemsPerLine ≥ items.length
    ",".intercalate chunk ++ if isLast then "" else ","

def chunkLine (items : List String) : String := "\n".intercalate (chunkLines items)

section Blocks

variable (formatF64 : K → String)

def nodeLine (nodeId : ℕ) (node : K × K × K) : String :=
  toString nodeId ++ "," ++ formatF64 node.1 ++ "," ++ formatF64 node.2.1 ++ ","
    ++ formatF64 node.2.2

def nodeBlock (nodes : List (K × K × K)) : String :=
  "\n".intercalate ("*NODE" :: nodes.zipIdx.map fun e => nodeLine formatF64 (e.2 + 1) e.1)

def elementBlock (elements : List (List ℕ)) (elementType : String) : String :=
  "\n".intercalate (("*ELEMENT, TYPE=" ++ elementType ++ ", ELSET=EALL") ::
    elements.zipIdx.map fun e => chunkLine (toString (e.2 + 1) :: e.1.map toString))

def nsetBlock (name : String) (nodeIds : List ℕ) : String :=
  "\n".intercalate ["*NSET, NSET=" ++ name, chunkLine (nodeIds.map toString)]

def materialBlock (material : Material K) : String :=
  "*MATERIAL, NAME=MAT1\n" ++ "*ELASTIC\n" ++ formatF64 material.youngsModulus ++ ","
    ++ formatF64 material.poisson

def materialBlockWithDensity (material : Material K) : String :=
  "*MATERIAL, NAME=MAT1\n" ++ "*ELASTIC\n" ++ formatF64 material.youngsModulus ++ ","
    ++ formatF64 material.poisson ++ "\n" ++ "*DENSITY\n" ++ formatF64 material.density

def solidSectionBlock : String := "*SOLID SECTION, ELSET=EALL, MATERIAL=MAT1"

def modalStepBlock (numModes : ℕ) : String :=
  "*STEP\n*FREQUENCY\n" ++ toString numModes ++ "\n*END STEP"

def staticStepBlock (cloadBlock outputRequest : String) : String :=
  "*STEP\n*STATIC\n" ++ cloadBlock ++ "\n" ++ outputRequest ++ "\n*END STEP"

/-! ### Decks -/

/-- `"\n".join(sections) + "\n"`. -/
def joinSections (sections : List String) : String := "\n".intercalate sections ++ "\n"

/-- A force split evenly. -/
def forcePerNode (force : K) (ids : List ℕ) : K :=
  if ids.length ≠ 0 then force / ids.length else 0

def allNodeIds (mesh : MeshData K) : List ℕ := (List.range mesh.nodes.length).map (· + 1)

/-- `build_cantilever_modal_deck`; `none` is the `KeyError` of a node set that
is not there. -/
def buildCantileverModalDeck (mesh : MeshData K) (material : Material K) (numModes : ℕ) :
    Option String := do
  let fixedIds ← mesh.nodeSets["FIXED"]?
  pure (joinSections [
    nodeBlock formatF64 mesh.nodes,
    elementBlock mesh.elements mesh.elementType,
    nsetBlock "NALL" (allNodeIds mesh),
    nsetBlock "FIXED" fixedIds,
    materialBlockWithDensity formatF64 material,
    solidSectionBlock,
    "*BOUNDARY\nFIXED,1,3",
    modalStepBlock numModes])

def buildCantileverDeck (mesh : MeshData K) (material : Material K) (tipForce : K) :
    Option String := do
  let fixedIds ← mesh.nodeSets["FIXED"]?
  let tipIds ← mesh.nodeSets["TIP"]?
  pure (joinSections [
    nodeBlock formatF64 mesh.nodes,
    elementBlock mesh.elements mesh.elementType,
    nsetBlock "NALL" (allNodeIds mesh),
    nsetBlock "FIXED" fixedIds,
    nsetBlock "TIP" tipIds,
    materialBlock formatF64 material,
    solidSectionBlock,
    "*BOUNDARY\nFIXED,1,3",
    staticStepBlock ("*CLOAD\nTIP,3," ++ formatF64 (-forcePerNode tipForce tipIds))
      "*NODE PRINT, NSET=NALL,\nU"])

/-- `mesh.nodes[node_id - 1]`; `-1` is the last one. -/
def nodeOf (mesh : MeshData K) (nodeId : ℕ) : Option (K × K × K) :=
  if nodeId = 0 then mesh.nodes.getLast? else mesh.nodes[nodeId - 1]?

/-- The mean radius and the axial span of the bore. -/
def boreExtent (boreCoords : List (K × K × K)) : K × K :=
  match boreCoords.map fun coord => coord.2.1 with
  | [] => (0, 0)
  | z :: zValues =>
      ((boreCoords.map fun coord => coord.1).sum / boreCoords.length,
        zValues.foldl max z - zValues.foldl min z)

/-- The total radial force; `pi` is `math.pi`. -/
def boreForce (pi pressure : K) (boreCoords : List (K × K × K)) : K :=
  pressure * (2.0 * pi * (boreExtent boreCoords).1) * (boreExtent boreCoords).2

/-- `build_cylinder_deck`; `none` is a `KeyError` or an `IndexError`. -/
def buildCylinderDeck (pi : K) (mesh : MeshData K) (material : Material K) (pressure : K) :
    Option String := do
  let boreIds ← mesh.nodeSets["BORE"]?
  let outerIds ← mesh.nodeSets["OUTER"]?
  let boreCoords ← boreIds.mapM (nodeOf mesh)
  pure (joinSections [
    nodeBlock formatF64 mesh.nodes,
    elementBlock mesh.elements mesh.elementType,
    nsetBlock "NALL" (allNodeIds mesh),
    nsetBlock "BORE" boreIds,
    nsetBlock "OUTER" outerIds,
    materialBlock formatF64 material,
    solidSectionBlock,
    "*BOUNDARY\nNALL,2,2",
    staticStepBlock
      ("*CLOAD\nBORE,1," ++ formatF64 (forcePerNode (boreForce pi pressure boreCoords) boreIds))
      "*EL PRINT, ELSET=EALL,\nS"])

end Blocks

/-! ### Lines of a record -/

theorem chunkLines_short {items : List String} (hne : items ≠ [])
    (h : items.length ≤ maxItemsPerLine) : chunkLines items = [",".intercalate items] := by
  have hpos := List.length_pos_iff.mpr hne
  have hone : (items.length + 15) / maxItemsPerLine = 1 := by
    simp only [maxItemsPerLine] at h ⊢
    omega
  simp [chunkLines, hone, h, List.take_of_length_le h]

theorem chunkLines_long {items : List String} (h : maxItemsPerLine < items.length) :
    chunkLines items = (",".intercalate (items.take maxItemsPerLine) ++ ",")
      :: chunkLines (items.drop maxItemsPerLine) := by
  have hsucc : (items.length + 15) / maxItemsPerLine
      = ((items.drop maxItemsPerLine).length + 15) / maxItemsPerLine + 1 := by
    simp only [List.length_drop, maxItemsPerLine] at h ⊢
    omega
  rw [chunkLines, hsucc, List.range_succ_eq_map, List.map_cons, List.map_map, chunkLines]
  refine congrArg₂ _ ?_ (List.map_congr_left fun i _ => ?_)
  · simp only [Nat.mul_zero, List.drop_zero, Nat.zero_add, ge_iff_le, if_neg (Nat.not_le.mpr h)]
  · have hstart : maxItemsPerLine * (i + 1) = maxItemsPerLine + maxItemsPerLine * i := by
      rw [Nat.mul_succ, Nat.add_comm]
    have hlast : maxItemsPerLine + maxItemsPerLine * i + maxItemsPerLine ≥ items.length
        ↔ maxItemsPerLine * i + maxItemsPerLine ≥ (items.drop maxItemsPerLine).length := by
      rw [List.length_drop]
      omega
    simp only [Function.comp_apply, Nat.succ_eq_add_one, hstart, List.drop_drop, hlast]

/-- The lines of `_chunk_line` are the record of its items. -/
theorem chunkLines_wraps : ∀ {items : List String}, items ≠ [] → Wraps (chunkLines items) items := by
  intro items
  -- on the number of items: the first sixteen are one line, the rest a shorter record
  induction hn : items.length using Nat.strong_induction_on generalizing items with
  | _ n ih =>
      intro hne
      by_cases h : items.length ≤ maxItemsPerLine
      · rw [chunkLines_short hne h]
        exact Wraps.last hne
      · have hlong := Nat.lt_of_not_le h
        have hdrop : items.drop maxItemsPerLine ≠ [] := by simpa using hlong
        have htake : items.take maxItemsPerLine ≠ [] := by simpa [maxItemsPerLine] using hne
        have hshorter : (items.drop maxItemsPerLine).length < n := by
          rw [← hn, List.length_drop]
          simp only [maxItemsPerLine] at hlong ⊢
          omega
        have hrest := ih _ hshorter rfl hdrop
        rw [chunkLines_long hlong]
        have hwraps := Wraps.more htake hrest
        rwa [List.take_append_drop] at hwraps

theorem isField_toString (n : ℕ) : IsField (toString n) := by
  have hlist : (toString n).toList = Nat.toDigits 10 n := Nat.toList_repr
  have hdigit : ∀ c ∈ (toString n).toList, c.isDigit := fun c hc =>
    Nat.isDigit_of_mem_toDigits (by decide) (by decide) (hlist ▸ hc)
  -- no digit is a comma, a line feed or an asterisk
  refine ⟨fun h => ?_, fun h => ?_, fun h => ?_, fun h => ?_⟩
  · have hnil := congrArg String.toList h
    rw [hlist] at hnil
    exact Nat.toDigits_ne_nil hnil
  · exact absurd (hdigit _ h) (by decide)
  · exact absurd (hdigit _ h) (by decide)
  · exact absurd (hdigit _ (List.mem_of_mem_head? h)) (by decide)

theorem forall_isField_map (ids : List ℕ) : ∀ f ∈ ids.map toString, IsField f :=
  List.forall_mem_map.mpr fun id _ => isField_toString id

/-! ### Blocks as cards -/

section Cards

variable (formatF64 : K → String)

def nodeCard (nodes : List (K × K × K)) : Card where
  keyword := ["*NODE"]
  records := nodes.zipIdx.map fun e =>
    [toString (e.2 + 1), formatF64 e.1.1, formatF64 e.1.2.1, formatF64 e.1.2.2]

def elementCard (elements : List (List ℕ)) (elementType : String) : Card where
  keyword := ["*ELEMENT", " TYPE=" ++ elementType, " ELSET=EALL"]
  records := elements.zipIdx.map fun e => toString (e.2 + 1) :: e.1.map toString

/-- An empty set has no record. -/
def nsetCard (name : String) (nodeIds : List ℕ) : Card where
  keyword := ["*NSET", " NSET=" ++ name]
  records := if nodeIds = [] then [] else [nodeIds.map toString]

def materialCards (material : Material K) : List Card :=
  [⟨["*MATERIAL", " NAME=MAT1"], []⟩,
    ⟨["*ELASTIC"], [[formatF64 material.youngsModulus, formatF64 material.poisson]]⟩]

def densityCard (material : Material K) : Card := ⟨["*DENSITY"], [[formatF64 material.density]]⟩

def solidSectionCard : Card := ⟨["*SOLID SECTION", " ELSET=EALL", " MATERIAL=MAT1"], []⟩

def modalStepCards (numModes : ℕ) : List Card :=
  [⟨["*STEP"], []⟩, ⟨["*FREQUENCY"], [[toString numModes]]⟩, ⟨["*END STEP"], []⟩]

def staticStepCards (cloads outputs : List Card) : List Card :=
  ⟨["*STEP"], []⟩ :: ⟨["*STATIC"], []⟩ :: (cloads ++ outputs ++ [⟨["*END STEP"], []⟩])

/-- `name,a,b` below a keyword. -/
def setCard (keyword name a b : String) : Card := ⟨[keyword], [[name, a, b]]⟩

def printCard (keyword param field : String) : Card := ⟨[keyword, param, ""], [[field]]⟩

def cantileverModalCards (mesh : MeshData K) (material : Material K) (numModes : ℕ)
    (fixedIds : List ℕ) : List Card :=
  [nodeCard formatF64 mesh.nodes, elementCard mesh.elements mesh.elementType,
      nsetCard "NALL" (allNodeIds mesh), nsetCard "FIXED" fixedIds]
    ++ (materialCards formatF64 material ++ [densityCard formatF64 material])
    ++ [solidSectionCard, setCard "*BOUNDARY" "FIXED" "1" "3"] ++ modalStepCards numModes

def cantileverCards (mesh : MeshData K) (material : Material K) (tipForce : K)
    (fixedIds tipIds : List ℕ) : List Card :=
  [nodeCard formatF64 mesh.nodes, elementCard mesh.elements mesh.elementType,
      nsetCard "NALL" (allNodeIds mesh), nsetCard "FIXED" fixedIds, nsetCard "TIP" tipIds]
    ++ materialCards formatF64 material
    ++ [solidSectionCard, setCard "*BOUNDARY" "FIXED" "1" "3"]
    ++ staticStepCards
      [setCard "*CLOAD" "TIP" "3" (formatF64 (-forcePerNode tipForce tipIds))]
      [printCard "*NODE PRINT" " NSET=NALL" "U"]

def cylinderCards (mesh : MeshData K) (material : Material K) (force : K)
    (boreIds outerIds : List ℕ) : List Card :=
  [nodeCard formatF64 mesh.nodes, elementCard mesh.elements mesh.elementType,
      nsetCard "NALL" (allNodeIds mesh), nsetCard "BORE" boreIds, nsetCard "OUTER" outerIds]
    ++ materialCards formatF64 material
    ++ [solidSectionCard, setCard "*BOUNDARY" "NALL" "2" "2"]
    ++ staticStepCards [setCard "*CLOAD" "BORE" "1" (formatF64 (forcePerNode force boreIds))]
      [printCard "*EL PRINT" " ELSET=EALL" "S"]

end Cards

/-! ### Blocks are read as cards -/

section Read

variable {formatF64 : K → String}

theorem isBlock_nodeBlock {nodes : List (K × K × K)}
    (h : ∀ node ∈ nodes, IsField (formatF64 node.1) ∧ IsField (formatF64 node.2.1) ∧
      IsField (formatF64 node.2.2)) :
    IsBlock (nodeBlock formatF64 nodes) [nodeCard formatF64 nodes] := by
  have hkeyword : IsKeywordLine ["*NODE"] := by decide
  have hline : (nodes.zipIdx.map fun e => nodeLine formatF64 (e.2 + 1) e.1)
      = (nodeCard formatF64 nodes).records.map ",".intercalate := by
    unfold nodeCard
    rw [List.map_map]
    refine List.map_congr_left fun e _ => ?_
    simp [nodeLine, String.append_assoc]
  unfold nodeBlock
  rw [hline]
  refine CardText.isBlock_records hkeyword ?_ ?_
  · intro record hrecord
    obtain ⟨e, -, rfl⟩ := List.mem_map.mp hrecord
    exact List.cons_ne_nil _ _
  · intro record hrecord
    obtain ⟨e, he, rfl⟩ := List.mem_map.mp hrecord
    obtain ⟨hx, hy, hz⟩ := h e.1 (List.fst_mem_of_mem_zipIdx he)
    simp only [List.mem_cons, List.not_mem_nil, or_false, forall_eq_or_imp, forall_eq]
    exact ⟨isField_toString _, hx, hy, hz⟩

theorem isBlock_elementBlock {elements : List (List ℕ)} {elementType : String}
    (hcomma : ',' ∉ elementType.toList) (hbreak : '\n' ∉ elementType.toList) :
    IsBlock (elementBlock elements elementType) [elementCard elements elementType] := by
  have hkeyword : IsKeywordLine ["*ELEMENT", " TYPE=" ++ elementType, " ELSET=EALL"] := by
    refine ⟨rfl, ?_, ?_⟩ <;> simp [String.toList_append, hcomma, hbreak]
  have htext : "*ELEMENT, TYPE=" ++ elementType ++ ", ELSET=EALL"
      = ",".intercalate ["*ELEMENT", " TYPE=" ++ elementType, " ELSET=EALL"] :=
    String.toList_inj.mp (by simp [String.toList_append])
  have hlines : (elements.zipIdx.map fun e => chunkLine (toString (e.2 + 1) :: e.1.map toString))
      = ((elementCard elements elementType).records.map chunkLines).map "\n".intercalate := by
    unfold elementCard
    rw [List.map_map, List.map_map]
    rfl
  unfold elementBlock
  rw [htext, hlines]
  refine CardText.isBlock_wrapped hkeyword ?_ ?_
  · refine List.forall₂_map_left_iff.mpr (List.forall₂_same.mpr fun record hrecord => ?_)
    obtain ⟨e, -, rfl⟩ := List.mem_map.mp hrecord
    exact chunkLines_wraps (List.cons_ne_nil _ _)
  · intro record hrecord
    obtain ⟨e, -, rfl⟩ := List.mem_map.mp hrecord
    exact List.forall_mem_cons.mpr ⟨isField_toString _, forall_isField_map _⟩

theorem isBlock_nsetBlock {name : String} (hcomma : ',' ∉ name.toList)
    (hbreak : '\n' ∉ name.toList) (nodeIds : List ℕ) :
    IsBlock (nsetBlock name nodeIds) [nsetCard name nodeIds] := by
  have hkeyword : IsKeywordLine ["*NSET", " NSET=" ++ name] := by
    refine ⟨rfl, ?_, ?_⟩ <;> simp [String.toList_append, hcomma, hbreak]
  have htext : "*NSET, NSET=" ++ name = ",".intercalate ["*NSET", " NSET=" ++ name] :=
    String.toList_inj.mp (by simp [String.toList_append])
  unfold nsetBlock
  rw [htext]
  by_cases hnil : nodeIds = []
  · -- the line of an empty set is blank
    subst hnil
    exact CardText.isBlock_card hkeyword List.Forall₂.nil (by simp) rfl
  · have hrecord : nodeIds.map toString ≠ [] := by simpa using hnil
    have hwraps : List.Forall₂ Wraps [chunkLines (nodeIds.map toString)] [nodeIds.map toString] :=
      List.Forall₂.cons (chunkLines_wraps hrecord) List.Forall₂.nil
    have hblock := CardText.isBlock_wrapped hkeyword hwraps
      (List.forall_mem_singleton.mpr (forall_isField_map nodeIds))
    rwa [nsetCard, if_neg hnil]

/-- A card with one short record. -/
theorem isBlock_record {keyword record : List String} (hkeyword : IsKeywordLine keyword)
    (hne : record ≠ []) (hfields : ∀ f ∈ record, IsField f) :
    IsBlock (",".intercalate keyword ++ "\n" ++ ",".intercalate record) [⟨keyword, [record]⟩] := by
  have hblock := CardText.isBlock_records hkeyword (List.forall_mem_singleton.mpr hne)
    (List.forall_mem_singleton.mpr hfields)
  rwa [List.map_singleton, String.intercalate_cons_cons, String.intercalate_singleton] at hblock

theorem isBlock_materialBlock {material : Material K}
    (hyoungs : IsField (formatF64 material.youngsModulus))
    (hpoisson : IsField (formatF64 material.poisson)) :
    IsBlock (materialBlock formatF64 material) (materialCards formatF64 material) := by
  have hrecord : ∀ f ∈ [formatF64 material.youngsModulus, formatF64 material.poisson], IsField f := by
    simp [hyoungs, hpoisson]
  have hmaterial : IsKeywordLine ["*MATERIAL", " NAME=MAT1"] := by decide
  have helastic : IsKeywordLine ["*ELASTIC"] := by decide
  have hblock := (CardText.isBlock_keyword hmaterial).append
    (isBlock_record helastic (List.cons_ne_nil _ _) hrecord)
  refine hblock.congr ?_ rfl
  unfold materialBlock
  exact String.toList_inj.mp (by simp [String.toList_append])

theorem isBlock_materialBlockWithDensity {material : Material K}
    (hyoungs : IsField (formatF64 material.youngsModulus))
    (hpoisson : IsField (formatF64 material.poisson))
    (hdensity : IsField (formatF64 material.density)) :
    IsBlock (materialBlockWithDensity formatF64 material)
      (materialCards formatF64 material ++ [densityCard formatF64 material]) := by
  have hkeyword : IsKeywordLine ["*DENSITY"] := by decide
  have hblock := (isBlock_materialBlock hyoungs hpoisson).append
    (isBlock_record hkeyword (List.cons_ne_nil _ _) (List.forall_mem_singleton.mpr hdensity))
  refine hblock.congr ?_ rfl
  unfold materialBlockWithDensity materialBlock
  exact String.toList_inj.mp (by simp [String.toList_append])

theorem isBlock_solidSectionBlock : IsBlock solidSectionBlock [solidSectionCard] :=
  CardText.isBlock_keyword
    (show IsKeywordLine ["*SOLID SECTION", " ELSET=EALL", " MATERIAL=MAT1"] by decide)

theorem isBlock_modalStepBlock (numModes : ℕ) :
    IsBlock (modalStepBlock numModes) (modalStepCards numModes) := by
  have hstep : IsKeywordLine ["*STEP"] := by decide
  have hfrequency : IsKeywordLine ["*FREQUENCY"] := by decide
  have hend : IsKeywordLine ["*END STEP"] := by decide
  have hblock := ((CardText.isBlock_keyword hstep).append (isBlock_record hfrequency
    (List.cons_ne_nil _ _) (List.forall_mem_singleton.mpr (isField_toString numModes)))).append
    (CardText.isBlock_keyword hend)
  refine hblock.congr ?_ rfl
  unfold modalStepBlock
  exact String.toList_inj.mp (by simp [String.toList_append])

theorem isBlock_staticStepBlock {cloadBlock outputRequest : String} {cloads outputs : List Card}
    (hcload : IsBlock cloadBlock cloads) (houtput : IsBlock outputRequest outputs) :
    IsBlock (staticStepBlock cloadBlock outputRequest) (staticStepCards cloads outputs) := by
  have hstep : IsKeywordLine ["*STEP"] := by decide
  have hstatic : IsKeywordLine ["*STATIC"] := by decide
  have hend : IsKeywordLine ["*END STEP"] := by decide
  have hblock := ((((CardText.isBlock_keyword hstep).append (CardText.isBlock_keyword hstatic)).append
    hcload).append houtput).append (CardText.isBlock_keyword hend)
  refine hblock.congr ?_ ?_
  · unfold staticStepBlock
    exact String.toList_inj.mp (by simp [String.toList_append])
  · simp [staticStepCards]

theorem isBlock_setCard {text keyword name a b : String} (hkeyword : IsKeywordLine [keyword])
    (hrecord : ∀ f ∈ [name, a, b], IsField f)
    (htext : text = keyword ++ "\n" ++ name ++ "," ++ a ++ "," ++ b) :
    IsBlock text [setCard keyword name a b] := by
  refine (isBlock_record hkeyword (List.cons_ne_nil _ _) hrecord).congr ?_ rfl
  rw [htext]
  exact String.toList_inj.mp (by simp [String.toList_append])

/-- A request ends with a comma. -/
theorem isBlock_printCard {text keyword param field : String}
    (hkeyword : IsKeywordLine [keyword, param, ""]) (hfield : IsField field)
    (htext : text = keyword ++ "," ++ param ++ ",\n" ++ field) :
    IsBlock text [printCard keyword param field] := by
  refine (isBlock_record hkeyword (List.cons_ne_nil _ _)
    (List.forall_mem_singleton.mpr hfield)).congr ?_ rfl
  rw [htext]
  exact String.toList_inj.mp (by simp [String.toList_append])

end Read

/-! ### Decks are read as cards -/

section Decks

variable (formatF64 : K → String) (mesh : MeshData K) (material : Material K)

/-- What a mesh and a material have to be, that they can stand in a deck. -/
structure Writable : Prop where
  typeComma : ',' ∉ mesh.elementType.toList
  typeBreak : '\n' ∉ mesh.elementType.toList
  nodes : ∀ node ∈ mesh.nodes, IsField (formatF64 node.1) ∧ IsField (formatF64 node.2.1) ∧
    IsField (formatF64 node.2.2)
  youngsModulus : IsField (formatF64 material.youngsModulus)
  poisson : IsField (formatF64 material.poisson)

variable {formatF64 mesh material}

/-- The blocks that every deck begins with. -/
theorem isBlock_mesh (h : Writable formatF64 mesh material) :
    List.Forall₂ IsBlock
      [nodeBlock formatF64 mesh.nodes, elementBlock mesh.elements mesh.elementType,
        nsetBlock "NALL" (allNodeIds mesh)]
      [[nodeCard formatF64 mesh.nodes], [elementCard mesh.elements mesh.elementType],
        [nsetCard "NALL" (allNodeIds mesh)]] :=
  .cons (isBlock_nodeBlock h.nodes) (.cons (isBlock_elementBlock h.typeComma h.typeBreak)
    (.cons (isBlock_nsetBlock (by decide) (by decide) _) .nil))

theorem isBlock_fixedBoundary : IsBlock "*BOUNDARY\nFIXED,1,3" [setCard "*BOUNDARY" "FIXED" "1" "3"] :=
  isBlock_setCard (by decide) (by decide) (by decide)

theorem read_cantileverDeck {tipForce : K} {fixedIds tipIds : List ℕ} {deck : String}
    (h : Writable formatF64 mesh material) (hfixed : mesh.nodeSets["FIXED"]? = some fixedIds)
    (htip : mesh.nodeSets["TIP"]? = some tipIds)
    (hforce : IsField (formatF64 (-forcePerNode tipForce tipIds)))
    (hdeck : buildCantileverDeck formatF64 mesh material tipForce = some deck) :
    CardText.read deck = cantileverCards formatF64 mesh material tipForce fixedIds tipIds := by
  simp only [buildCantileverDeck, hfixed, htip, Option.bind_eq_bind, Option.bind_some,
    Option.pure_def, Option.some.injEq] at hdeck
  subst hdeck
  have hsets : List.Forall₂ IsBlock [nsetBlock "FIXED" fixedIds, nsetBlock "TIP" tipIds]
      [[nsetCard "FIXED" fixedIds], [nsetCard "TIP" tipIds]] :=
    .cons (isBlock_nsetBlock (by decide) (by decide) _)
      (.cons (isBlock_nsetBlock (by decide) (by decide) _) .nil)
  have hcload : IsBlock ("*CLOAD\nTIP,3," ++ formatF64 (-forcePerNode tipForce tipIds))
      [setCard "*CLOAD" "TIP" "3" (formatF64 (-forcePerNode tipForce tipIds))] :=
    isBlock_setCard (by decide)
      (List.forall_mem_cons.mpr ⟨by decide, List.forall_mem_cons.mpr ⟨by decide,
        List.forall_mem_singleton.mpr hforce⟩⟩)
      (String.toList_inj.mp (by simp [String.toList_append]))
  have hprint : IsBlock "*NODE PRINT, NSET=NALL,\nU" [printCard "*NODE PRINT" " NSET=NALL" "U"] :=
    isBlock_printCard (by decide) (by decide) (by decide)
  have hrest : List.Forall₂ IsBlock
      [materialBlock formatF64 material, solidSectionBlock, "*BOUNDARY\nFIXED,1,3",
        staticStepBlock ("*CLOAD\nTIP,3," ++ formatF64 (-forcePerNode tipForce tipIds))
          "*NODE PRINT, NSET=NALL,\nU"]
      [materialCards formatF64 material, [solidSectionCard], [setCard "*BOUNDARY" "FIXED" "1" "3"],
        staticStepCards [setCard "*CLOAD" "TIP" "3" (formatF64 (-forcePerNode tipForce tipIds))]
          [printCard "*NODE PRINT" " NSET=NALL" "U"]] :=
    .cons (isBlock_materialBlock h.youngsModulus h.poisson) (.cons isBlock_solidSectionBlock
      (.cons isBlock_fixedBoundary (.cons (isBlock_staticStepBlock hcload hprint) .nil)))
  exact CardText.read_blocks (List.rel_append (isBlock_mesh h) (List.rel_append hsets hrest))
    (List.cons_ne_nil _ _)

theorem read_cantileverModalDeck {numModes : ℕ} {fixedIds : List ℕ} {deck : String}
    (h : Writable formatF64 mesh material) (hdensity : IsField (formatF64 material.density))
    (hfixed : mesh.nodeSets["FIXED"]? = some fixedIds)
    (hdeck : buildCantileverModalDeck formatF64 mesh material numModes = some deck) :
    CardText.read deck = cantileverModalCards formatF64 mesh material numModes fixedIds := by
  simp only [buildCantileverModalDeck, hfixed, Option.bind_eq_bind, Option.bind_some,
    Option.pure_def, Option.some.injEq] at hdeck
  subst hdeck
  have hrest : List.Forall₂ IsBlock
      [nsetBlock "FIXED" fixedIds, materialBlockWithDensity formatF64 material, solidSectionBlock,
        "*BOUNDARY\nFIXED,1,3", modalStepBlock numModes]
      [[nsetCard "FIXED" fixedIds],
        materialCards formatF64 material ++ [densityCard formatF64 material], [solidSectionCard],
        [setCard "*BOUNDARY" "FIXED" "1" "3"], modalStepCards numModes] :=
    .cons (isBlock_nsetBlock (by decide) (by decide) _)
      (.cons (isBlock_materialBlockWithDensity h.youngsModulus h.poisson hdensity)
        (.cons isBlock_solidSectionBlock (.cons isBlock_fixedBoundary
          (.cons (isBlock_modalStepBlock numModes) .nil))))
  exact CardText.read_blocks (List.rel_append (isBlock_mesh h) hrest) (List.cons_ne_nil _ _)

theorem read_cylinderDeck {pi pressure : K} {boreIds outerIds : List ℕ}
    {boreCoords : List (K × K × K)} {deck : String}
    (h : Writable formatF64 mesh material) (hbore : mesh.nodeSets["BORE"]? = some boreIds)
    (houter : mesh.nodeSets["OUTER"]? = some outerIds)
    (hcoords : boreIds.mapM (nodeOf mesh) = some boreCoords)
    (hforce : IsField (formatF64 (forcePerNode (boreForce pi pressure boreCoords) boreIds)))
    (hdeck : buildCylinderDeck formatF64 pi mesh material pressure = some deck) :
    CardText.read deck = cylinderCards formatF64 mesh material (boreForce pi pressure boreCoords)
      boreIds outerIds := by
  simp only [buildCylinderDeck, hbore, houter, hcoords, Option.bind_eq_bind, Option.bind_some,
    Option.pure_def, Option.some.injEq] at hdeck
  subst hdeck
  generalize boreForce pi pressure boreCoords = force at hforce ⊢
  have hsets : List.Forall₂ IsBlock [nsetBlock "BORE" boreIds, nsetBlock "OUTER" outerIds]
      [[nsetCard "BORE" boreIds], [nsetCard "OUTER" outerIds]] :=
    .cons (isBlock_nsetBlock (by decide) (by decide) _)
      (.cons (isBlock_nsetBlock (by decide) (by decide) _) .nil)
  have hboundary : IsBlock "*BOUNDARY\nNALL,2,2" [setCard "*BOUNDARY" "NALL" "2" "2"] :=
    isBlock_setCard (by decide) (by decide) (by decide)
  have hcload : IsBlock ("*CLOAD\nBORE,1," ++ formatF64 (forcePerNode force boreIds))
      [setCard "*CLOAD" "BORE" "1" (formatF64 (forcePerNode force boreIds))] :=
    isBlock_setCard (by decide)
      (List.forall_mem_cons.mpr ⟨by decide, List.forall_mem_cons.mpr ⟨by decide,
        List.forall_mem_singleton.mpr hforce⟩⟩)
      (String.toList_inj.mp (by simp [String.toList_append]))
  have hprint : IsBlock "*EL PRINT, ELSET=EALL,\nS" [printCard "*EL PRINT" " ELSET=EALL" "S"] :=
    isBlock_printCard (by decide) (by decide) (by decide)
  have hrest : List.Forall₂ IsBlock
      [materialBlock formatF64 material, solidSectionBlock, "*BOUNDARY\nNALL,2,2",
        staticStepBlock ("*CLOAD\nBORE,1," ++ formatF64 (forcePerNode force boreIds))
          "*EL PRINT, ELSET=EALL,\nS"]
      [materialCards formatF64 material, [solidSectionCard], [setCard "*BOUNDARY" "NALL" "2" "2"],
        staticStepCards [setCard "*CLOAD" "BORE" "1" (formatF64 (forcePerNode force boreIds))]
          [printCard "*EL PRINT" " ELSET=EALL" "S"]] :=
    .cons (isBlock_materialBlock h.youngsModulus h.poisson) (.cons isBlock_solidSectionBlock
      (.cons hboundary (.cons (isBlock_staticStepBlock hcload hprint) .nil)))
  exact CardText.read_blocks (List.rel_append (isBlock_mesh h) (List.rel_append hsets hrest))
    (List.cons_ne_nil _ _)

end Decks

end FeaDeck

end Feldspar

/-
Feldspar/DigestForm.lean

The digest form of an expression is faithful (`canonical_string` in
`symbolic.rs`).

The string is bracketed prefix notation: a port or a literal is a word, every
other node is a head with its operands (`toList_canonicalString`).  A port name
has no bracket and no space in it, and neither has a formatted literal, as far
as the formatting is what it is assumed to be.  So the string can be read in
one way only, up to the literals that the formatting keeps apart
(`canonicalString_injective`).

`LitExpr` is the expression of the source with literals of any kind, so that
every `f64` is one.  The expressions of the model are those with numbers and
the one infinite exponent (`Expr.toLitExpr`).
-/
import Feldspar.Symbolic
import Feldspar.Lib.PrefixForm

set_option linter.unusedSectionVars false

namespace Feldspar

open PrefixForm (SExpr)

/-- An expression over ports, with literals in `L`. -/
inductive LitExpr (L : Type)
  | var (name : String)
  | lit (x : L)
  | neg (e : LitExpr L)
  | add (operands : List (LitExpr L))
  | mul (operands : List (LitExpr L))
  | pow (base exp : LitExpr L)
  | unary (f : UnaryFn) (e : LitExpr L)

namespace LitExpr

variable {L : Type}

/-- Induction with a hypothesis for every operand. -/
@[elab_as_elim]
theorem ind {motive : LitExpr L → Prop} (var : ∀ name, motive (.var name))
    (lit : ∀ x, motive (.lit x)) (neg : ∀ e, motive e → motive (.neg e))
    (add : ∀ operands, (∀ op ∈ operands, motive op) → motive (.add operands))
    (mul : ∀ operands, (∀ op ∈ operands, motive op) → motive (.mul operands))
    (pow : ∀ base exp, motive base → motive exp → motive (.pow base exp))
    (unary : ∀ f e, motive e → motive (.unary f e)) (e : LitExpr L) : motive e := by
  refine LitExpr.rec (motive_1 := motive) (motive_2 := fun operands => ∀ op ∈ operands, motive op)
    var lit neg add mul pow unary (fun _ h => absurd h List.not_mem_nil)
    (fun _ _ hop hops op h => ?_) e
  rcases List.mem_cons.mp h with rfl | h
  · exact hop
  · exact hops op h

/-! ### The string -/

mutual

/-- `canonical_string`; `formatF64` is `digest::format_f64`. -/
def canonicalString (formatF64 : L → String) : LitExpr L → String
  | var name => "V:" ++ name
  | lit x => "L:" ++ formatF64 x
  | neg e => "(neg " ++ canonicalString formatF64 e ++ ")"
  | unary f e => "(" ++ f.name ++ " " ++ canonicalString formatF64 e ++ ")"
  | pow base exp =>
      "(pow " ++ canonicalString formatF64 base ++ " " ++ canonicalString formatF64 exp ++ ")"
  | add operands => "(add " ++ " ".intercalate (canonicalStrings formatF64 operands) ++ ")"
  | mul operands => "(mul " ++ " ".intercalate (canonicalStrings formatF64 operands) ++ ")"

def canonicalStrings (formatF64 : L → String) : List (LitExpr L) → List String
  | [] => []
  | op :: operands => canonicalString formatF64 op :: canonicalStrings formatF64 operands

end

mutual

/-- The literals used. -/
def literals : LitExpr L → List L
  | var _ => []
  | lit x => [x]
  | neg e => literals e
  | unary _ e => literals e
  | pow base exp => literals base ++ literals exp
  | add operands => operandLiterals operands
  | mul operands => operandLiterals operands

def operandLiterals : List (LitExpr L) → List L
  | [] => []
  | op :: operands => literals op ++ operandLiterals operands

end

mutual

def ports : LitExpr L → List String
  | var name => [name]
  | lit _ => []
  | neg e => ports e
  | unary _ e => ports e
  | pow base exp => ports base ++ ports exp
  | add operands => operandPorts operands
  | mul operands => operandPorts operands

def operandPorts : List (LitExpr L) → List String
  | [] => []
  | op :: operands => ports op ++ operandPorts operands

end

theorem literals_subset {op : LitExpr L} : ∀ {operands : List (LitExpr L)}, op ∈ operands →
    op.literals ⊆ operandLiterals operands
  | _ :: operands, h => by
      rw [operandLiterals]
      rcases List.mem_cons.mp h with rfl | h
      · exact List.subset_append_left _ _
      · exact fun x hx => List.mem_append_right _ (literals_subset h hx)

theorem ports_subset {op : LitExpr L} : ∀ {operands : List (LitExpr L)}, op ∈ operands →
    op.ports ⊆ operandPorts operands
  | _ :: operands, h => by
      rw [operandPorts]
      rcases List.mem_cons.mp h with rfl | h
      · exact List.subset_append_left _ _
      · exact fun x hx => List.mem_append_right _ (ports_subset h hx)

/-! ### The notation -/

/-- The brackets and the space. -/
def marks : PrefixForm.Marks Char := ⟨'(', ' ', ')', by decide, by decide, by decide⟩

mutual

def toSExpr (formatF64 : L → String) : LitExpr L → SExpr Char
  | var name => .word ("V:" ++ name).toList
  | lit x => .word ("L:" ++ formatF64 x).toList
  | neg e => .node "neg".toList [toSExpr formatF64 e]
  | unary f e => .node f.name.toList [toSExpr formatF64 e]
  | pow base exp => .node "pow".toList [toSExpr formatF64 base, toSExpr formatF64 exp]
  | add operands => .node "add".toList (toSExprs formatF64 operands)
  | mul operands => .node "mul".toList (toSExprs formatF64 operands)

def toSExprs (formatF64 : L → String) : List (LitExpr L) → List (SExpr Char)
  | [] => []
  | op :: operands => toSExpr formatF64 op :: toSExprs formatF64 operands

end

section Form

variable {formatF64 : L → String}

theorem canonicalStrings_eq_map : ∀ operands : List (LitExpr L),
    canonicalStrings formatF64 operands = operands.map (canonicalString formatF64)
  | [] => rfl
  | op :: operands => by rw [canonicalStrings, canonicalStrings_eq_map operands, List.map_cons]

theorem toSExprs_eq_map : ∀ operands : List (LitExpr L),
    toSExprs formatF64 operands = operands.map (toSExpr formatF64)
  | [] => rfl
  | op :: operands => by rw [toSExprs, toSExprs_eq_map operands, List.map_cons]

/-- A head with its operands, as the format strings of the source write it. -/
theorem toList_node {head : String} {operands : List String} {es : List (SExpr Char)}
    (h : operands.map String.toList = PrefixForm.renderAll marks es) :
    ("(" ++ head ++ " " ++ " ".intercalate operands ++ ")").toList
      = PrefixForm.render marks (.node head.toList es) := by
  rw [PrefixForm.render, ← h]
  simp [marks]

theorem toList_canonicalString (e : LitExpr L) :
    (canonicalString formatF64 e).toList = PrefixForm.render marks (toSExpr formatF64 e) := by
  have hoperands : ∀ operands : List (LitExpr L),
      (∀ op ∈ operands, (canonicalString formatF64 op).toList
        = PrefixForm.render marks (toSExpr formatF64 op)) →
      (canonicalStrings formatF64 operands).map String.toList
        = PrefixForm.renderAll marks (toSExprs formatF64 operands) := by
    intro operands h
    rw [canonicalStrings_eq_map, toSExprs_eq_map, PrefixForm.renderAll_eq_map, List.map_map,
      List.map_map]
    exact List.map_congr_left h
  have hone : ∀ {op : LitExpr L},
      (canonicalString formatF64 op).toList = PrefixForm.render marks (toSExpr formatF64 op) →
      [canonicalString formatF64 op].map String.toList
        = PrefixForm.renderAll marks [toSExpr formatF64 op] :=
    fun {op} h => hoperands [op] fun op' hop' => (List.mem_singleton.mp hop') ▸ h
  induction e using ind with
  | var name => rfl
  | lit x => rfl
  | neg e ih =>
      rw [toSExpr, ← toList_node (hone ih)]
      rfl
  | add operands ih =>
      rw [toSExpr, ← toList_node (hoperands operands ih)]
      rfl
  | mul operands ih =>
      rw [toSExpr, ← toList_node (hoperands operands ih)]
      rfl
  | pow base exp ihb ihx =>
      have htwo : [canonicalString formatF64 base, canonicalString formatF64 exp].map String.toList
          = PrefixForm.renderAll marks [toSExpr formatF64 base, toSExpr formatF64 exp] := by
        refine hoperands [base, exp] fun op hop => ?_
        rcases List.mem_pair.mp hop with rfl | rfl
        · exact ihb
        · exact ihx
      rw [toSExpr, ← toList_node htwo, canonicalString, String.intercalate_cons_cons]
      simp
  | unary f e ih =>
      rw [toSExpr, ← toList_node (hone ih)]
      rfl

/-! ### Reading it -/

/-- What a port name is made of. -/
def IsPortName (name : String) : Prop :=
  name ≠ "" ∧ ∀ c ∈ name.toList,
    ('a' ≤ c ∧ c ≤ 'z') ∨ ('0' ≤ c ∧ c ≤ '9') ∨ c = '_' ∨ c = '.'

/-- No space and no parenthesis. -/
def Plain (s : String) : Prop := ∀ c ∈ s.toList, c ≠ '(' ∧ c ≠ ' ' ∧ c ≠ ')'

instance : DecidablePred Plain := fun s =>
  List.decidableBAll (fun c => c ≠ '(' ∧ c ≠ ' ' ∧ c ≠ ')') s.toList

theorem IsPortName.plain {name : String} (h : IsPortName name) : Plain name := by
  intro c hc
  rcases h.2 c hc with ⟨hlo, -⟩ | ⟨hlo, -⟩ | rfl | rfl
  · refine ⟨?_, ?_, ?_⟩ <;> rintro rfl <;> exact absurd hlo (by decide)
  · refine ⟨?_, ?_, ?_⟩ <;> rintro rfl <;> exact absurd hlo (by decide)
  · decide
  · decide

/-- A tag before a plain text is a word. -/
theorem readable_word {tag s : String} (htag : Plain tag) (hne : tag.toList ≠ []) (hs : Plain s) :
    PrefixForm.Readable marks (.word (tag ++ s).toList) := by
  rw [String.toList_append]
  refine .word (List.append_ne_nil_of_left_ne_nil hne _) fun c hc => ?_
  rcases List.mem_append.mp hc with hc | hc
  · exact htag c hc
  · exact hs c hc

theorem UnaryFn.plain_name (f : UnaryFn) : Plain f.name := by
  cases f <;> decide

theorem readable_toSExpr (e : LitExpr L) :
    (∀ x ∈ e.literals, Plain (formatF64 x)) → (∀ name ∈ e.ports, IsPortName name) →
      PrefixForm.Readable marks (toSExpr formatF64 e) := by
  have hnode : ∀ (head : String) (operands : List (LitExpr L)), Plain head →
      (∀ op ∈ operands, PrefixForm.Readable marks (toSExpr formatF64 op)) →
      PrefixForm.Readable marks (.node head.toList (toSExprs formatF64 operands)) := by
    intro head operands hhead h
    refine .node hhead fun op hop => ?_
    rw [toSExprs_eq_map] at hop
    obtain ⟨op, hmem, rfl⟩ := List.mem_map.mp hop
    exact h op hmem
  induction e using ind with
  | var name =>
      intro _ hports
      exact readable_word (by decide) (by decide) (hports name List.mem_cons_self).plain
  | lit x =>
      intro hplain _
      exact readable_word (by decide) (by decide) (hplain x List.mem_cons_self)
  | neg e ih =>
      intro hplain hports
      refine hnode "neg" [e] (by decide) fun op hop => ?_
      obtain rfl := List.mem_singleton.mp hop
      exact ih hplain hports
  | add operands ih =>
      intro hplain hports
      exact hnode _ operands (by decide) fun op hop => ih op hop
        (fun x hx => hplain x (literals_subset hop hx)) fun x hx => hports x (ports_subset hop hx)
  | mul operands ih =>
      intro hplain hports
      exact hnode _ operands (by decide) fun op hop => ih op hop
        (fun x hx => hplain x (literals_subset hop hx)) fun x hx => hports x (ports_subset hop hx)
  | pow base exp ihb ihx =>
      intro hplain hports
      refine hnode "pow" [base, exp] (by decide) fun op hop => ?_
      rcases List.mem_pair.mp hop with rfl | rfl
      · exact ihb (fun x hx => hplain x (List.mem_append_left _ hx))
          fun x hx => hports x (List.mem_append_left _ hx)
      · exact ihx (fun x hx => hplain x (List.mem_append_right _ hx))
          fun x hx => hports x (List.mem_append_right _ hx)
  | unary f e ih =>
      intro hplain hports
      refine hnode f.name [e] (UnaryFn.plain_name f) fun op hop => ?_
      obtain rfl := List.mem_singleton.mp hop
      exact ih hplain hports

/-- The head of a node and its operands; a port and a literal have none. -/
def node? : LitExpr L → Option (String × List (LitExpr L))
  | var _ => none
  | lit _ => none
  | neg e => some ("neg", [e])
  | unary f e => some (f.name, [e])
  | pow base exp => some ("pow", [base, exp])
  | add operands => some ("add", operands)
  | mul operands => some ("mul", operands)

section Node

variable {e e' : LitExpr L} {head : String} {operands operands' : List (LitExpr L)}

theorem toSExpr_of_node? (h : e.node? = some (head, operands)) :
    toSExpr formatF64 e = .node head.toList (toSExprs formatF64 operands) := by
  cases e <;> cases h <;> rfl

theorem literals_of_node? (h : e.node? = some (head, operands)) :
    e.literals = operandLiterals operands := by
  cases e <;> cases h <;> simp [literals, operandLiterals]

theorem toSExpr_of_node?_eq_none (h : e.node? = none) :
    ∃ w, toSExpr formatF64 e = .word w := by
  cases e <;> cases h
  · exact ⟨_, rfl⟩
  · exact ⟨_, rfl⟩

/-- The node of a head and operands. -/
def ofNode (head : String) (operands : List (LitExpr L)) : Option (LitExpr L) :=
  if head = "add" then some (add operands)
  else if head = "mul" then some (mul operands)
  else match operands with
    | [e] =>
        if head = "neg" then some (neg e)
        else
          ([UnaryFn.sqrt, .sin, .cos, .exp, .ln].find? fun f => f.name = head).map fun f => unary f e
    | [base, exp] => some (pow base exp)
    | _ => none

/-- No two heads are the same, those of the functions included. -/
theorem ofNode_of_node? (h : e.node? = some (head, operands)) : ofNode head operands = some e := by
  cases e <;> cases h
  case unary f e => cases f <;> rfl
  all_goals rfl

/-- What the formatting keeps apart. -/
def Separates (formatF64 : L → String) (xs ys : List L) : Prop :=
  ∀ x ∈ xs, ∀ y ∈ ys, formatF64 x = formatF64 y → x = y

def Reads (formatF64 : L → String) (e : LitExpr L) : Prop :=
  ∀ e' : LitExpr L, Separates formatF64 e.literals e'.literals →
    toSExpr formatF64 e = toSExpr formatF64 e' → e = e'

theorem operands_eq : ∀ {operands operands' : List (LitExpr L)},
    (∀ op ∈ operands, Reads formatF64 op) →
      Separates formatF64 (operandLiterals operands) (operandLiterals operands') →
        toSExprs formatF64 operands = toSExprs formatF64 operands' → operands = operands'
  | [], [], _, _, _ => rfl
  | op :: operands, op' :: operands', ih, hsep, h => by
      obtain ⟨hop, ih⟩ := List.forall_mem_cons.mp ih
      obtain ⟨hhead, htail⟩ := List.cons.inj h
      have hop : op = op' := hop op' (fun x hx y hy => hsep x (List.mem_append_left _ hx) y
        (List.mem_append_left _ hy)) hhead
      have hrest : operands = operands' := operands_eq ih (fun x hx y hy =>
        hsep x (List.mem_append_right _ hx) y (List.mem_append_right _ hy)) htail
      rw [hop, hrest]

theorem reads_node (h : e.node? = some (head, operands))
    (ih : ∀ op ∈ operands, Reads formatF64 op) : Reads formatF64 e := by
  intro e' hsep heq
  rw [toSExpr_of_node? h] at heq
  rcases h' : e'.node? with - | ⟨head', operands'⟩
  · obtain ⟨w, hw⟩ : ∃ w, toSExpr formatF64 e' = .word w := toSExpr_of_node?_eq_none h'
    rw [hw] at heq
    cases heq
  · rw [toSExpr_of_node? h', SExpr.node.injEq] at heq
    rw [literals_of_node? h, literals_of_node? h'] at hsep
    obtain rfl : head = head' := String.toList_inj.mp heq.1
    obtain rfl : operands = operands' := operands_eq ih hsep heq.2
    exact Option.some.inj ((ofNode_of_node? h).symm.trans (ofNode_of_node? h'))

end Node

/-- What is read determines the expression. -/
theorem reads (e : LitExpr L) : Reads formatF64 e := by
  induction e using ind with
  | var name =>
      intro e' _ h
      cases e' with
      | var name' =>
          rw [toSExpr, toSExpr, SExpr.word.injEq, String.toList_inj] at h
          exact congrArg _ (String.append_right_inj _ |>.mp h)
      | lit y => exact absurd h (by simp [toSExpr])
      | _ => cases h
  | lit x =>
      intro e' hsep h
      cases e' with
      | lit y =>
          rw [toSExpr, toSExpr, SExpr.word.injEq, String.toList_inj] at h
          exact congrArg _ (hsep x List.mem_cons_self y List.mem_cons_self
            (String.append_right_inj _ |>.mp h))
      | var name => exact absurd h (by simp [toSExpr])
      | _ => cases h
  | neg e ih => exact reads_node rfl (List.forall_mem_singleton.mpr ih)
  | add operands ih => exact reads_node rfl ih
  | mul operands ih => exact reads_node rfl ih
  | pow base exp ihb ihx =>
      exact reads_node rfl (List.forall_mem_cons.mpr ⟨ihb, List.forall_mem_singleton.mpr ihx⟩)
  | unary f e ih => exact reads_node rfl (List.forall_mem_singleton.mpr ih)

/-- Two readable strings are of one expression. -/
theorem eq_of_canonicalString_eq {e e' : LitExpr L}
    (hsep : Separates formatF64 e.literals e'.literals)
    (he : PrefixForm.Readable marks (toSExpr formatF64 e))
    (he' : PrefixForm.Readable marks (toSExpr formatF64 e'))
    (h : e.canonicalString formatF64 = e'.canonicalString formatF64) : e = e' := by
  have hrender : PrefixForm.render marks (toSExpr formatF64 e)
      = PrefixForm.render marks (toSExpr formatF64 e') := by
    rw [← toList_canonicalString, ← toList_canonicalString, h]
  exact reads e e' hsep (PrefixForm.render_injOn he he' hrender)

/-- **The digest form is faithful**: where the formatting keeps the literals
used apart and writes no space and no parenthesis, and the ports have names,
different expressions have different strings. -/
theorem canonicalString_injective {e e' : LitExpr L}
    (hinj : Set.InjOn formatF64 { x | x ∈ e.literals ++ e'.literals })
    (hplain : ∀ x ∈ e.literals ++ e'.literals, Plain (formatF64 x))
    (hports : ∀ name ∈ e.ports ++ e'.ports, IsPortName name)
    (h : e.canonicalString formatF64 = e'.canonicalString formatF64) : e = e' := by
  have he : PrefixForm.Readable marks (toSExpr formatF64 e) :=
    readable_toSExpr e (fun x hx => hplain x (List.mem_append_left _ hx))
      fun name hname => hports name (List.mem_append_left _ hname)
  have he' : PrefixForm.Readable marks (toSExpr formatF64 e') :=
    readable_toSExpr e' (fun x hx => hplain x (List.mem_append_right _ hx))
      fun name hname => hports name (List.mem_append_right _ hname)
  refine eq_of_canonicalString_eq (fun x hx y hy hxy => ?_) he he' h
  exact hinj (List.mem_append_left _ hx) (List.mem_append_right _ hy) hxy

end Form

/-- A factor that is multiplied out has another digest form. -/
theorem canonicalString_injective_factor :
    (mul [lit (2 : ℚ), add [var "m.a", var "m.b"]]).canonicalString (fun _ => "2.0")
      ≠ (add [mul [lit (2 : ℚ), var "m.a"], var "m.b"]).canonicalString fun _ => "2.0" := by
  intro h
  have heq := canonicalString_injective (L := ℚ) (by simp [literals, operandLiterals])
    (by simp only [literals, operandLiterals]; decide)
    (by simp [ports, operandPorts, IsPortName]) h
  cases heq

end LitExpr

/-! ### The expressions of the model -/

namespace Expr

mutual

/-- The number and the infinite exponents are literals. -/
def toLitExpr : Expr → LitExpr (F64 ℚ)
  | var name => .var name
  | lit x => .lit (.finite x)
  | neg e => .neg (toLitExpr e)
  | unary f e => .unary f (toLitExpr e)
  | pow base exp => .pow (toLitExpr base) (toLitExpr exp)
  | powInf base => .pow (toLitExpr base) (.lit .nonFinite)
  | add operands => .add (toLitExprs operands)
  | mul operands => .mul (toLitExprs operands)

def toLitExprs : List Expr → List (LitExpr (F64 ℚ))
  | [] => []
  | op :: operands => toLitExpr op :: toLitExprs operands

end

theorem canonicalString_toLitExpr (formatF64 : F64 ℚ → String) (e : Expr) :
    e.toLitExpr.canonicalString formatF64 = e.canonicalString formatF64 := by
  have hoperands : ∀ operands : List Expr,
      (∀ op ∈ operands, op.toLitExpr.canonicalString formatF64 = op.canonicalString formatF64) →
        LitExpr.canonicalStrings formatF64 (toLitExprs operands)
          = canonicalStrings formatF64 operands := by
    intro operands
    induction operands with
    | nil => exact fun _ => rfl
    | cons op operands ih =>
        intro h
        obtain ⟨hop, h⟩ := List.forall_mem_cons.mp h
        rw [toLitExprs, LitExpr.canonicalStrings, canonicalStrings, hop, ih h]
  induction e using ind with
  | var name => rfl
  | lit x => rfl
  | neg e ih => rw [toLitExpr, LitExpr.canonicalString, canonicalString, ih]
  | add operands ih =>
      rw [toLitExpr, LitExpr.canonicalString, canonicalString, hoperands operands ih]
  | mul operands ih =>
      rw [toLitExpr, LitExpr.canonicalString, canonicalString, hoperands operands ih]
  | pow base exp ihb ihx =>
      rw [toLitExpr, LitExpr.canonicalString, canonicalString, ihb, ihx]
  | powInf base ih =>
      rw [toLitExpr, LitExpr.canonicalString, canonicalString, ih, LitExpr.canonicalString]
      simp only [String.append_assoc]
      rfl
  | unary f e ih => rw [toLitExpr, LitExpr.canonicalString, canonicalString, ih]

theorem toLitExpr_ne_nonFinite (e : Expr) : e.toLitExpr ≠ .lit .nonFinite := by
  intro h
  cases e <;> cases h

/-- Operand lists of one form are equal, once it determines each operand. -/
theorem toLitExprs_inj {operands : List Expr}
    (hop : ∀ op ∈ operands, ∀ e' : Expr, op.toLitExpr = e'.toLitExpr → op = e') :
    ∀ operands', toLitExprs operands = toLitExprs operands' → operands = operands' := by
  induction operands with
  | nil =>
      intro operands' h
      cases operands' with
      | nil => rfl
      | cons _ _ => cases h
  | cons op operands ih =>
      intro operands' h
      cases operands' with
      | nil => cases h
      | cons op' operands' =>
          obtain ⟨hfirst, hrest⟩ := List.forall_mem_cons.mp hop
          obtain ⟨hhead, htail⟩ := List.cons.inj h
          rw [hfirst op' hhead, ih hrest operands' htail]

theorem toLitExpr_inj (e : Expr) : ∀ e' : Expr, e.toLitExpr = e'.toLitExpr → e = e' := by
  induction e using ind with
  | var name =>
      intro e' h
      cases e' <;> cases h
      rfl
  | lit x =>
      intro e' h
      cases e' <;> cases h
      rfl
  | neg e ih =>
      intro e' h
      cases e' with
      | neg e' => rw [ih e' (LitExpr.neg.inj h)]
      | _ => cases h
  | add operands ih =>
      intro e' h
      cases e' with
      | add operands' => rw [toLitExprs_inj ih operands' (LitExpr.add.inj h)]
      | _ => cases h
  | mul operands ih =>
      intro e' h
      cases e' with
      | mul operands' => rw [toLitExprs_inj ih operands' (LitExpr.mul.inj h)]
      | _ => cases h
  | pow base exp ihb ihx =>
      intro e' h
      cases e' with
      | pow base' exp' =>
          obtain ⟨hb, hx⟩ := LitExpr.pow.inj h
          rw [ihb base' hb, ihx exp' hx]
      | powInf base' => exact absurd (LitExpr.pow.inj h).2 (toLitExpr_ne_nonFinite exp)
      | _ => cases h
  | powInf base ih =>
      intro e' h
      cases e' with
      | powInf base' => rw [ih base' (LitExpr.pow.inj h).1]
      | pow base' exp' => exact absurd (LitExpr.pow.inj h).2.symm (toLitExpr_ne_nonFinite exp')
      | _ => cases h
  | unary f e ih =>
      intro e' h
      cases e' with
      | unary f' e' =>
          obtain ⟨rfl, he⟩ := LitExpr.unary.inj h
          rw [ih e' he]
      | _ => cases h

/-- The string of an expression of the model determines it, under the same
conditions. -/
theorem eq_of_canonicalString_eq {formatF64 : F64 ℚ → String} {e e' : Expr}
    (hinj : Function.Injective formatF64) (hplain : ∀ x, LitExpr.Plain (formatF64 x))
    (hports : ∀ name ∈ e.toLitExpr.ports ++ e'.toLitExpr.ports, LitExpr.IsPortName name)
    (h : e.canonicalString formatF64 = e'.canonicalString formatF64) : e = e' := by
  rw [← canonicalString_toLitExpr, ← canonicalString_toLitExpr] at h
  refine toLitExpr_inj e e' (LitExpr.eq_of_canonicalString_eq (fun _ _ _ _ hxy => hinj hxy) ?_ ?_ h)
  · exact LitExpr.readable_toSExpr _ (fun x _ => hplain x)
      fun name hname => hports name (List.mem_append_left _ hname)
  · exact LitExpr.readable_toSExpr _ (fun x _ => hplain x)
      fun name hname => hports name (List.mem_append_right _ hname)

end Expr

end Feldspar

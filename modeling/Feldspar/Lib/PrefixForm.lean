/-
Feldspar/Lib/PrefixForm.lean

Bracketed prefix notation: unique readability.

An expression is a word or a head with any number of operands, written
`(head operand ... operand)` with one separator after the head and one between
two operands; without operands it is `(head )`.  The brackets and the separator
do not occur in words (`IsWord`), and a word that stands for an expression is
not empty (`Readable`).

The argument goes by what is left to read: an expression followed by the end,
a separator or a closing bracket (`Ends`) can be read in one way only, and so
what follows it is the same as well (`Cancels`).  This is what the operands of
a list need one after the other (`renderRest_inj`).
-/
import Mathlib.Data.List.Basic
import Mathlib.Data.Set.Function
import Mathlib.Tactic.Common

namespace PrefixForm

/-- The three characters that structure the notation. -/
structure Marks (α : Type*) where
  left : α
  sep : α
  right : α
  left_ne_sep : left ≠ sep
  left_ne_right : left ≠ right
  sep_ne_right : sep ≠ right

inductive SExpr (α : Type*)
  | word (w : List α)
  | node (head : List α) (operands : List (SExpr α))

variable {α : Type*} {d : Marks α}

/-- Induction with a hypothesis for every operand. -/
@[elab_as_elim]
theorem SExpr.ind {motive : SExpr α → Prop} (word : ∀ w, motive (.word w))
    (node : ∀ head operands, (∀ op ∈ operands, motive op) → motive (.node head operands))
    (e : SExpr α) : motive e := by
  refine SExpr.rec (motive_1 := motive) (motive_2 := fun operands => ∀ op ∈ operands, motive op)
    word node (fun _ h => absurd h List.not_mem_nil) (fun _ _ hop hops op h => ?_) e
  rcases List.mem_cons.mp h with rfl | h
  · exact hop
  · exact hops op h

mutual

def render (d : Marks α) : SExpr α → List α
  | .word w => w
  | .node head operands =>
      d.left :: (head ++ d.sep :: ([d.sep].intercalate (renderAll d operands) ++ [d.right]))

def renderAll (d : Marks α) : List (SExpr α) → List (List α)
  | [] => []
  | op :: operands => render d op :: renderAll d operands

end

/-- No bracket and no separator. -/
def IsWord (d : Marks α) (w : List α) : Prop := ∀ c ∈ w, c ≠ d.left ∧ c ≠ d.sep ∧ c ≠ d.right

inductive Readable (d : Marks α) : SExpr α → Prop
  | word {w} : w ≠ [] → IsWord d w → Readable d (.word w)
  | node {head operands} : IsWord d head → (∀ op ∈ operands, Readable d op) →
      Readable d (.node head operands)

/-- What may follow an expression. -/
def Ends (d : Marks α) (r : List α) : Prop :=
  r = [] ∨ ∃ t, r = d.sep :: t ∨ r = d.right :: t

theorem Ends.sep (d : Marks α) (t : List α) : Ends d (d.sep :: t) := Or.inr ⟨t, Or.inl rfl⟩

theorem Ends.right (d : Marks α) (t : List α) : Ends d (d.right :: t) := Or.inr ⟨t, Or.inr rfl⟩

/-! ### Words -/

/-- No character of a word ends it. -/
theorem IsWord.not_ends {w r : List α} {c : α} (h : IsWord d (c :: w)) : ¬ Ends d (c :: r) := by
  obtain ⟨-, hsep, hright⟩ := h c List.mem_cons_self
  rintro (hr | ⟨t, hr | hr⟩)
  · cases hr
  · exact hsep (List.cons.inj hr).1
  · exact hright (List.cons.inj hr).1

/-- A word ends where the next mark is. -/
theorem word_inj : ∀ {w w' r r' : List α}, IsWord d w → IsWord d w' → Ends d r → Ends d r' →
    w ++ r = w' ++ r' → w = w' ∧ r = r'
  | [], [], _, _, _, _, _, _, h => ⟨rfl, h⟩
  | [], _ :: _, _, _, _, hw', hr, _, h => by
      rw [List.nil_append] at h
      exact absurd (h ▸ hr) hw'.not_ends
  | _ :: _, [], _, _, hw, _, _, hr', h => by
      rw [List.nil_append] at h
      exact absurd (h.symm ▸ hr') hw.not_ends
  | c :: w, c' :: w', r, r', hw, hw', hr, hr', h => by
      rw [List.cons_append, List.cons_append, List.cons.injEq] at h
      obtain ⟨rfl, h⟩ := h
      obtain ⟨rfl, hrest⟩ := word_inj (fun x hx => hw x (List.mem_cons_of_mem _ hx))
        (fun x hx => hw' x (List.mem_cons_of_mem _ hx)) hr hr' h
      exact ⟨rfl, hrest⟩

/-! ### Expressions -/

/-- An expression that is read in one way only, with what follows it. -/
def Cancels (d : Marks α) (e : SExpr α) : Prop :=
  ∀ e' r r', Readable d e' → Ends d r → Ends d r' →
    render d e ++ r = render d e' ++ r' → e = e' ∧ r = r'

/-- The operands but the first, each after its separator. -/
def renderRest (d : Marks α) (operands : List (SExpr α)) : List α :=
  operands.flatMap fun op => d.sep :: render d op

theorem renderAll_eq_map : ∀ operands : List (SExpr α),
    renderAll d operands = operands.map (render d)
  | [] => rfl
  | op :: operands => by rw [renderAll, renderAll_eq_map operands, List.map_cons]

theorem intercalate_renderAll (op : SExpr α) (operands : List (SExpr α)) :
    [d.sep].intercalate (renderAll d (op :: operands)) = render d op ++ renderRest d operands := by
  rw [renderAll_eq_map, List.map_cons]
  induction operands generalizing op with
  | nil => simp [renderRest]
  | cons op' operands ih =>
      rw [List.map_cons, List.intercalate_cons_cons, ih op', renderRest, renderRest,
        List.flatMap_cons, List.append_assoc, List.singleton_append, List.cons_append]

theorem ends_renderRest (operands : List (SExpr α)) (r : List α) :
    Ends d (renderRest d operands ++ d.right :: r) := by
  cases operands with
  | nil => exact Ends.right d r
  | cons op operands =>
      rw [renderRest, List.flatMap_cons, List.cons_append, List.cons_append]
      exact Ends.sep d _

/-- An expression does not start with a closing bracket. -/
theorem render_ne_right {e : SExpr α} (he : Readable d e) (r t : List α) :
    render d e ++ r ≠ d.right :: t := by
  intro h
  cases he with
  | @word w hne hword =>
      rw [render] at h
      obtain ⟨c, w, rfl⟩ := List.exists_cons_of_ne_nil hne
      exact (hword c List.mem_cons_self).2.2 (List.cons.inj h).1
  | node _ _ =>
      rw [render] at h
      exact d.left_ne_right (List.cons.inj h).1

theorem renderRest_inj : ∀ {operands operands' : List (SExpr α)} {r r' : List α},
    (∀ op ∈ operands, Cancels d op) → (∀ op ∈ operands', Readable d op) →
      renderRest d operands ++ d.right :: r = renderRest d operands' ++ d.right :: r' →
        operands = operands' ∧ r = r'
  | [], [], _, _, _, _, h => ⟨rfl, (List.cons.inj h).2⟩
  | [], _ :: _, _, _, _, _, h => absurd (List.cons.inj h).1 d.sep_ne_right.symm
  | _ :: _, [], _, _, _, _, h => absurd (List.cons.inj h).1 d.sep_ne_right
  | op :: operands, op' :: operands', r, r', hcancels, hreadable, h => by
      obtain ⟨hop, hothers⟩ := List.forall_mem_cons.mp hcancels
      obtain ⟨hop', hothers'⟩ := List.forall_mem_cons.mp hreadable
      have htail : render d op ++ (renderRest d operands ++ d.right :: r)
          = render d op' ++ (renderRest d operands' ++ d.right :: r') := by
        rw [← List.append_assoc, ← List.append_assoc]
        exact (List.cons.inj h).2
      obtain ⟨rfl, hrest⟩ := hop op' _ _ hop' (ends_renderRest operands r)
        (ends_renderRest operands' r') htail
      obtain ⟨rfl, hafter⟩ := renderRest_inj hothers hothers' hrest
      exact ⟨rfl, hafter⟩

theorem operands_inj {operands operands' : List (SExpr α)} {r r' : List α}
    (hcancels : ∀ op ∈ operands, Cancels d op) (hreadable : ∀ op ∈ operands, Readable d op)
    (hreadable' : ∀ op ∈ operands', Readable d op)
    (h : [d.sep].intercalate (renderAll d operands) ++ d.right :: r
      = [d.sep].intercalate (renderAll d operands') ++ d.right :: r') :
    operands = operands' ∧ r = r' := by
  cases operands with
  | nil =>
      cases operands' with
      | nil => exact ⟨rfl, (List.cons.inj h).2⟩
      | cons op' operands' =>
          rw [intercalate_renderAll, List.append_assoc] at h
          exact absurd h.symm (render_ne_right (hreadable' op' List.mem_cons_self) _ _)
  | cons op operands =>
      cases operands' with
      | nil =>
          rw [intercalate_renderAll, List.append_assoc] at h
          exact absurd h (render_ne_right (hreadable op List.mem_cons_self) _ _)
      | cons op' operands' =>
          -- the first operands stand without a separator; put one before each
          have hrest : renderRest d (op :: operands) ++ d.right :: r
              = renderRest d (op' :: operands') ++ d.right :: r' := by
            rw [intercalate_renderAll, intercalate_renderAll] at h
            rw [renderRest, renderRest, List.flatMap_cons, List.flatMap_cons]
            exact congrArg (d.sep :: ·) h
          exact renderRest_inj hcancels hreadable' hrest

theorem cancels {e : SExpr α} : Readable d e → Cancels d e := by
  induction e using SExpr.ind with
  | word w =>
      intro he e' r r' he' hr hr' h
      cases he with
      | word hne hword =>
          cases he' with
          | word hne' hword' =>
              obtain ⟨rfl, hrest⟩ := word_inj hword hword' hr hr' h
              exact ⟨rfl, hrest⟩
          | node _ _ =>
              obtain ⟨c, w, rfl⟩ := List.exists_cons_of_ne_nil hne
              exact absurd (List.cons.inj h).1 (hword c List.mem_cons_self).1
  | node head operands ih =>
      intro he e' r r' he' hr hr' h
      cases he with
      | node hhead hoperands =>
          cases he' with
          | word hne' hword' =>
              obtain ⟨c, w, rfl⟩ := List.exists_cons_of_ne_nil hne'
              exact absurd (List.cons.inj h).1.symm (hword' c List.mem_cons_self).1
          | @node head' operands' hhead' hoperands' =>
              rw [render, render, List.cons_append, List.cons_append, List.cons.injEq] at h
              have hnode := h.2
              simp only [List.append_assoc, List.cons_append, List.nil_append] at hnode
              obtain ⟨rfl, hrest⟩ := word_inj hhead hhead' (Ends.sep d _) (Ends.sep d _) hnode
              obtain ⟨rfl, hafter⟩ := operands_inj (fun op hop => ih op hop (hoperands op hop))
                hoperands hoperands' (List.cons.inj hrest).2
              exact ⟨rfl, hafter⟩

/-- **Unique readability.** -/
theorem render_injOn : Set.InjOn (render d) { e | Readable d e } := by
  intro e he e' he' h
  refine (cancels he e' [] [] he' (Or.inl rfl) (Or.inl rfl) ?_).1
  rw [h]

end PrefixForm

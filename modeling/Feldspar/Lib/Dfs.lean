/-
Feldspar/Lib/Dfs.lean

Cycle detection by three-colour depth-first search over adjacency lists.

`visit` is the recursive search with a recursion budget; `hasCycle` starts
it from every node of a list.  The correctness argument has two halves:

* `visit_spec`: black nodes are closed under edges and lie on no cycle, and
  every grey node reaches the node being visited, so meeting a grey node
  closes a cycle;
* `visit_total`: each nested call has one white node less, so a budget
  above the number of nodes is enough.
-/
import Mathlib.Data.Finset.Card
import Mathlib.Data.Fintype.Basic
import Mathlib.Logic.Relation

namespace Dfs

variable {V : Type*} [DecidableEq V]

inductive Color
  | white
  | gray
  | black
  deriving DecidableEq

abbrev Colors (V : Type*) := V → Color

/-- Visit the nodes of a list in order, until one visit answers `true`. -/
def anyChild (f : V → Colors V → Option (Bool × Colors V)) :
    List V → Colors V → Option (Bool × Colors V)
  | [], c => some (false, c)
  | v :: vs, c =>
      match f v c with
      | none => none
      | some (true, c') => some (true, c')
      | some (false, c') => anyChild f vs c'

/-- Whether a visit of `v` closes a cycle; `none` when the recursion budget
ran out. -/
def visit (adj : V → List V) : ℕ → V → Colors V → Option (Bool × Colors V)
  | 0, _, _ => none
  | fuel + 1, v, c =>
      match c v with
      | .black => some (false, c)
      | .gray => some (true, c)
      | .white =>
          match anyChild (visit adj fuel) (adj v) (Function.update c v .gray) with
          | none => none
          | some (true, c') => some (true, c')
          | some (false, c') => some (false, Function.update c' v .black)

/-- Search from every node of `nodes`, all of them white at first. -/
def hasCycle (adj : V → List V) (fuel : ℕ) (nodes : List V) : Option Bool :=
  (anyChild (visit adj fuel) nodes fun _ => .white).map Prod.fst

def Edge (adj : V → List V) (a b : V) : Prop := b ∈ adj a

variable {adj : V → List V}

/-! ### Partial correctness -/

/-- What the black nodes satisfy at every moment of the search. -/
structure BlackInv (adj : V → List V) (c : Colors V) : Prop where
  closed : ∀ a b, c a = .black → b ∈ adj a → c b = .black
  acyclic : ∀ a, c a = .black → ¬ Relation.TransGen (Edge adj) a a

omit [DecidableEq V] in
theorem BlackInv.reach {c : Colors V} (h : BlackInv adj c) {a b : V} (ha : c a = .black)
    (hab : Relation.TransGen (Edge adj) a b) : c b = .black := by
  induction hab with
  | single h₁ => exact h.closed _ _ ha h₁
  | tail _ h₁ ih => exact h.closed _ _ ih h₁

/-- What a visit that found no cycle leaves behind. -/
structure Finished (adj : V → List V) (c c' : Colors V) : Prop where
  inv : BlackInv adj c'
  gray : ∀ g, c' g = .gray ↔ c g = .gray
  black : ∀ a, c a = .black → c' a = .black

omit [DecidableEq V] in
theorem Finished.trans {c₁ c₂ c₃ : Colors V} (h : Finished adj c₁ c₂) (h' : Finished adj c₂ c₃) :
    Finished adj c₁ c₃ :=
  ⟨h'.inv, fun g => (h'.gray g).trans (h.gray g), fun a ha => h'.black a (h.black a ha)⟩

/-- The contract of a visit of `v` from colours `c`. -/
def VisitSpec (adj : V → List V) (v : V) (c : Colors V) (out : Bool × Colors V) : Prop :=
  BlackInv adj c → (∀ g, c g = .gray → Relation.TransGen (Edge adj) g v) →
    (out.1 = true → ∃ a, Relation.TransGen (Edge adj) a a) ∧
    (out.1 = false → Finished adj c out.2 ∧ out.2 v = .black)

omit [DecidableEq V] in
theorem anyChild_spec {f : V → Colors V → Option (Bool × Colors V)}
    (hf : ∀ v c out, f v c = some out → VisitSpec adj v c out) :
    ∀ (vs : List V) (c : Colors V) (out : Bool × Colors V),
      anyChild f vs c = some out → BlackInv adj c →
      (∀ v ∈ vs, ∀ g, c g = .gray → Relation.TransGen (Edge adj) g v) →
      (out.1 = true → ∃ a, Relation.TransGen (Edge adj) a a) ∧
      (out.1 = false → Finished adj c out.2 ∧ ∀ v ∈ vs, out.2 v = .black) := by
  intro vs
  induction vs with
  | nil =>
      intro c out h hinv _
      obtain rfl := Option.some.inj h
      exact ⟨by simp, fun _ => ⟨⟨hinv, fun _ => Iff.rfl, fun _ ha => ha⟩, by simp⟩⟩
  | cons v vs ih =>
      intro c out h hinv hgray
      rw [anyChild] at h
      rcases e : f v c with - | ⟨b, c₁⟩
      · simp [e] at h
      · have hv := hf v c (b, c₁) e hinv (hgray v (by simp))
        cases b with
        | true =>
            simp only [e, Option.some.injEq] at h
            subst h
            exact ⟨fun _ => hv.1 rfl, by simp⟩
        | false =>
            simp only [e] at h
            obtain ⟨hfin, hblack⟩ := hv.2 rfl
            obtain ⟨h₁, h₂⟩ := ih c₁ out h hfin.inv fun w hw g hg =>
              hgray w (List.mem_cons_of_mem _ hw) g ((hfin.gray g).mp hg)
            refine ⟨h₁, fun hb => ?_⟩
            obtain ⟨hfin', hall⟩ := h₂ hb
            refine ⟨hfin.trans hfin', fun w hw => ?_⟩
            rcases List.mem_cons.mp hw with rfl | hw
            · exact hfin'.black _ hblack
            · exact hall w hw

/-- Turning a grey node black once all its successors are black. -/
theorem blackInv_update {v : V} {c : Colors V} (hinv : BlackInv adj c) (hv : c v = .gray)
    (hsucc : ∀ u ∈ adj v, c u = .black) : BlackInv adj (Function.update c v .black) := by
  have hmono : ∀ u, c u = .black → Function.update c v Color.black u = .black := by
    intro u hu
    by_cases huv : u = v
    · subst huv; simp
    · simpa [huv] using hu
  constructor
  · intro a b ha hb
    by_cases hav : a = v
    · subst hav
      exact hmono b (hsucc b hb)
    · rw [Function.update_of_ne hav] at ha
      exact hmono b (hinv.closed a b ha hb)
  · intro a ha hcyc
    by_cases hav : a = v
    · subst hav
      -- the first edge of the cycle leads to a black node, which cannot reach a grey one
      obtain ⟨u, hu, hrest⟩ := Relation.TransGen.head'_iff.mp hcyc
      have hub := hsucc u hu
      rcases Relation.reflTransGen_iff_eq_or_transGen.mp hrest with rfl | hrest
      · rw [hv] at hub; cases hub
      · have := hinv.reach hub hrest
        rw [hv] at this; cases this
    · rw [Function.update_of_ne hav] at ha
      exact hinv.acyclic a ha hcyc

theorem visit_spec : ∀ (fuel : ℕ) (v : V) (c : Colors V) (out : Bool × Colors V),
    visit adj fuel v c = some out → VisitSpec adj v c out := by
  intro fuel
  induction fuel with
  | zero => intro v c out h; simp [visit] at h
  | succ fuel ih =>
      intro v c out h hinv hgray
      rw [visit] at h
      rcases hc : c v with - | - | -
      · simp only [hc] at h
        -- white: the successors are visited with `v` grey
        have hinv₁ : BlackInv adj (Function.update c v .gray) := by
          constructor
          · intro a b ha hb
            have hav : a ≠ v := by rintro rfl; simp at ha
            rw [Function.update_of_ne hav] at ha
            have hb' := hinv.closed a b ha hb
            have hbv : b ≠ v := by rintro rfl; rw [hc] at hb'; cases hb'
            rwa [Function.update_of_ne hbv]
          · intro a ha
            have hav : a ≠ v := by rintro rfl; simp at ha
            rw [Function.update_of_ne hav] at ha
            exact hinv.acyclic a ha
        have hgray₁ : ∀ u ∈ adj v, ∀ g, Function.update c v Color.gray g = .gray →
            Relation.TransGen (Edge adj) g u := by
          intro u hu g hg
          by_cases hgv : g = v
          · subst hgv; exact Relation.TransGen.single hu
          · rw [Function.update_of_ne hgv] at hg
            exact (hgray g hg).tail hu
        rcases e : anyChild (visit adj fuel) (adj v) (Function.update c v .gray) with - | ⟨b, c'⟩
        · simp [e] at h
        · obtain ⟨h₁, h₂⟩ := anyChild_spec ih (adj v) _ (b, c') e hinv₁ hgray₁
          cases b with
          | true =>
              simp only [e, Option.some.injEq] at h
              subst h
              exact ⟨fun _ => h₁ rfl, by simp⟩
          | false =>
              simp only [e, Option.some.injEq] at h
              subst h
              refine ⟨by simp, fun _ => ⟨⟨?_, fun g => ?_, fun a ha => ?_⟩, by simp⟩⟩
              · obtain ⟨hfin, hall⟩ := h₂ rfl
                exact blackInv_update hfin.inv ((hfin.gray v).mpr (by simp)) hall
              · obtain ⟨hfin, -⟩ := h₂ rfl
                by_cases hgv : g = v
                · subst hgv; simp [hc]
                · simpa [hgv] using hfin.gray g
              · obtain ⟨hfin, -⟩ := h₂ rfl
                have hav : a ≠ v := by rintro rfl; rw [hc] at ha; cases ha
                simpa [hav] using hfin.black a (by simpa [hav] using ha)
      · simp only [hc, Option.some.injEq] at h
        subst h
        exact ⟨fun _ => ⟨v, hgray v hc⟩, by simp⟩
      · simp only [hc, Option.some.injEq] at h
        subst h
        exact ⟨by simp, fun _ => ⟨⟨hinv, fun _ => Iff.rfl, fun _ ha => ha⟩, hc⟩⟩

/-! ### Enough fuel -/

/-- The white nodes of a finite universe. -/
def whites (U : Finset V) (c : Colors V) : Finset V := U.filter fun u => c u = .white

omit [DecidableEq V] in
theorem anyChild_total {U : Finset V} {f : V → Colors V → Option (Bool × Colors V)} {n : ℕ}
    (hf : ∀ v ∈ U, ∀ c, (whites U c).card < n →
      ∃ out, f v c = some out ∧ (out.1 = false → whites U out.2 ⊆ whites U c)) :
    ∀ (vs : List V), (∀ v ∈ vs, v ∈ U) → ∀ c, (whites U c).card < n →
      ∃ out, anyChild f vs c = some out ∧ (out.1 = false → whites U out.2 ⊆ whites U c) := by
  intro vs
  induction vs with
  | nil => intro _ c _; exact ⟨(false, c), rfl, fun _ => subset_rfl⟩
  | cons v vs ih =>
      intro hU c hc
      obtain ⟨⟨b, c₁⟩, e, hsub⟩ := hf v (hU v (by simp)) c hc
      cases b with
      | true => exact ⟨(true, c₁), by simp [anyChild, e], by simp⟩
      | false =>
          have hsub := hsub rfl
          obtain ⟨out, e', hsub'⟩ := ih (fun w hw => hU w (List.mem_cons_of_mem _ hw)) c₁
            ((Finset.card_le_card hsub).trans_lt hc)
          exact ⟨out, by simp [anyChild, e, e'], fun hb => (hsub' hb).trans hsub⟩

/-- A budget above the number of white nodes is enough. -/
theorem visit_total {U : Finset V} (hU : ∀ a ∈ U, ∀ b ∈ adj a, b ∈ U) :
    ∀ (fuel : ℕ), ∀ v ∈ U, ∀ c, (whites U c).card < fuel →
      ∃ out, visit adj fuel v c = some out ∧ (out.1 = false → whites U out.2 ⊆ whites U c) := by
  intro fuel
  induction fuel with
  | zero => intro v _ c h; simp at h
  | succ fuel ih =>
      intro v hv c hcard
      rcases hc : c v with - | - | -
      · have hsub : whites U (Function.update c v .gray) ⊂ whites U c := by
          rw [Finset.ssubset_iff_of_subset]
          · exact ⟨v, by simp [whites, hv, hc], by simp [whites]⟩
          · intro u hu
            simp only [whites, Finset.mem_filter] at hu ⊢
            have huv : u ≠ v := by rintro rfl; simp at hu
            simpa [huv] using hu
        have hlt := Finset.card_lt_card hsub
        obtain ⟨⟨b, c'⟩, e, hsub'⟩ :=
          anyChild_total ih (adj v) (hU v hv) (Function.update c v .gray) (by omega)
        cases b with
        | true => exact ⟨(true, c'), by simp [visit, hc, e], by simp⟩
        | false =>
            refine ⟨(false, Function.update c' v .black), by simp [visit, hc, e], fun _ => ?_⟩
            refine subset_trans ?_ ((hsub' rfl).trans hsub.subset)
            intro u hu
            simp only [whites, Finset.mem_filter] at hu ⊢
            have huv : u ≠ v := by rintro rfl; simp at hu
            simpa [huv] using hu
      · exact ⟨(true, c), by simp [visit, hc], by simp⟩
      · exact ⟨(false, c), by simp [visit, hc], fun _ => subset_rfl⟩

/-- The search answers, and answers whether the graph has a directed cycle,
when its start nodes include every node with a successor and its budget is
above the size of a finite set that holds the start nodes and is closed
under edges. -/
theorem hasCycle_spec {U : Finset V} {fuel : ℕ} {nodes : List V}
    (hU : ∀ a ∈ U, ∀ b ∈ adj a, b ∈ U) (hnodes : ∀ v ∈ nodes, v ∈ U)
    (hsrc : ∀ v, adj v ≠ [] → v ∈ nodes) (hfuel : U.card < fuel) :
    ∃ b, hasCycle adj fuel nodes = some b ∧
      (b = true ↔ ∃ v, Relation.TransGen (Edge adj) v v) := by
  have hcard : (whites U fun _ => .white).card < fuel :=
    (Finset.card_le_card (Finset.filter_subset _ _)).trans_lt hfuel
  obtain ⟨⟨b, c'⟩, e, -⟩ := anyChild_total (visit_total hU fuel) nodes hnodes _ hcard
  have hinv : BlackInv adj fun _ => Color.white := ⟨by simp, by simp⟩
  obtain ⟨h₁, h₂⟩ := anyChild_spec (visit_spec fuel) nodes _ _ e hinv (by simp)
  refine ⟨b, by simp [hasCycle, e], h₁, ?_⟩
  rintro ⟨v, hv⟩
  by_contra hb
  obtain ⟨hfin, hall⟩ := h₂ (by simpa using hb)
  obtain ⟨u, hu, -⟩ := Relation.TransGen.head'_iff.mp hv
  have hv' : v ∈ nodes := hsrc v (by intro h; simp [Edge, h] at hu)
  exact hfin.inv.acyclic v (hall v hv') hv

end Dfs

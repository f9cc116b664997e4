/-
Feldspar/Lib/Rooted.lean

Flows on a rooted tree some of whose edges are free.

The flows of the other edges are given, and those of the free edges can be
chosen to balance every node whose edge to its parent is free
(`Grown.exists_flow`).  The free edges join the nodes into groups, and a group
has one node whose edge to its parent is not free, its top (`top`): the only
node of the group that need not be balanced, and its balance is what the given
flows bring into the group (`balance_eq_supply`).
-/
import Feldspar.Lib.Flow
import Mathlib.Algebra.BigOperators.Group.Finset.Sigma
import Mathlib.Logic.Relation

set_option linter.unusedSectionVars false

namespace Flow

variable {V : Type*} [DecidableEq V] {R : Type*} [CommRing R]
variable {ends : List (V × V)} {root : V} {found l r : List (Found V)} {g : Found V} {n : V}

/-! ### Balances -/

theorem balance_congr {f f' : ℕ → R} (h : ∀ i, coef ends n i ≠ 0 → f i = f' i) :
    balance ends f n = balance ends f' n := by
  rw [balance_eq_sum, balance_eq_sum]
  refine Finset.sum_congr rfl fun i _ => ?_
  by_cases hi : coef ends n i = 0
  · rw [hi, Int.cast_zero, zero_mul, zero_mul]
  · rw [h i hi]

/-! ### The flow that a tree determines -/

section Free

variable (free : ℕ → Prop)

/-- The nodes reached over a free edge are balanced. -/
def Determined (ends : List (V × V)) (found : List (Found V)) (f : ℕ → R) : Prop :=
  ∀ g ∈ found, free g.edge → balance ends f g.node = 0

theorem Grown.exists_flow (h : Grown ends root found) : ∀ f₀ : ℕ → R, ∃ f : ℕ → R,
    (∀ i, f i ≠ f₀ i → free i ∧ i ∈ found.map Found.edge) ∧ Determined free ends found f := by
  induction h with
  | nil =>
      intro f₀
      exact ⟨f₀, fun i hi => absurd rfl hi, fun g hg => absurd hg List.not_mem_nil⟩
  | @snoc found g hfound hparent hnode hjoins ih =>
      intro f₀
      have hunit := coef_node_sq (R := R) hjoins (parent_ne_node hparent hnode)
      have hlast : g.edge ∈ (found ++ [g]).map Found.edge := by simp
      have hbefore : ∀ {i}, i ∈ found.map Found.edge → i ∈ (found ++ [g]).map Found.edge := by
        intro i hi
        rw [List.map_append]
        exact List.mem_append_left _ hi
      -- the flow of the last edge settles the last node, and stays
      have hgiven : ∃ x : R, (x ≠ f₀ g.edge → free g.edge) ∧
          (free g.edge → balance ends (Function.update f₀ g.edge x) g.node = 0) := by
        by_cases hfree : free g.edge
        · refine ⟨f₀ g.edge - coef ends g.node g.edge * balance ends f₀ g.node,
            fun _ => hfree, fun _ => ?_⟩
          rw [balance_update]
          linear_combination (-balance ends f₀ g.node) * hunit
        · exact ⟨f₀ g.edge, fun hne => absurd rfl hne, fun hfree' => absurd hfree' hfree⟩
      obtain ⟨x, hx, hsettled⟩ := hgiven
      obtain ⟨f, hf, hdetermined⟩ := ih (Function.update f₀ g.edge x)
      refine ⟨f, fun i hi => ?_, fun g' hg' hfree => ?_⟩
      · by_cases hif : f i = Function.update f₀ g.edge x i
        · by_cases hig : i = g.edge
          · rw [hif, hig, Function.update_self] at hi
            exact ⟨hig ▸ hx hi, hig ▸ hlast⟩
          · rw [hif, Function.update_of_ne hig] at hi
            exact absurd rfl hi
        · exact ⟨(hf i hif).1, hbefore (hf i hif).2⟩
      · rcases List.mem_append.mp hg' with hg' | hg'
        · exact hdetermined g' hg' hfree
        · rw [List.mem_singleton.mp hg'] at hfree ⊢
          rw [← hsettled hfree]
          refine balance_congr fun i hi => ?_
          by_contra hne
          obtain ⟨g'', hg'', rfl⟩ := List.mem_map.mp (hf i hne).2
          exact hi (hfound.coef_eq_zero_of_not_mem hnode hg'')

/-! ### Groups -/

variable [DecidablePred free]

/-- Two nodes joined by a free edge. -/
def FreeStep (ends : List (V × V)) (u v : V) : Prop :=
  ∃ i, free i ∧ (ends[i]? = some (u, v) ∨ ends[i]? = some (v, u))

/-- Two nodes of one group. -/
def Grouped (ends : List (V × V)) : V → V → Prop := Relation.ReflTransGen (FreeStep free ends)

theorem FreeStep.symm {u v : V} (h : FreeStep free ends u v) : FreeStep free ends v u := by
  obtain ⟨i, hi, hends⟩ := h
  exact ⟨i, hi, hends.symm⟩

theorem Grouped.symm {u v : V} (h : Grouped free ends u v) : Grouped free ends v u := by
  induction h with
  | refl => exact Relation.ReflTransGen.refl
  | tail _ hstep ih => exact ih.head hstep.symm

/-- The node where the free edges from `v` to the root end. -/
def top (found : List (Found V)) : V → V :=
  found.foldl (fun top g =>
    Function.update top g.node (if free g.edge then top g.parent else g.node)) id

theorem top_snoc : top free (found ++ [g]) = Function.update (top free found) g.node
    (if free g.edge then top free found g.parent else g.node) := by
  rw [top, List.foldl_append]
  rfl

theorem Grown.top_root (h : Grown ends root found) : top free found root = root := by
  induction h with
  | nil => rfl
  | snoc _ _ hnode _ ih =>
      have hne : root ≠ _ := fun heq => hnode (heq ▸ List.mem_cons_self)
      rw [top_snoc, Function.update_of_ne hne, ih]

theorem Grown.top_node (h : Grown ends root found) : ∀ g ∈ found,
    top free found g.node = if free g.edge then top free found g.parent else g.node := by
  induction h with
  | nil => exact fun g hg => absurd hg List.not_mem_nil
  | @snoc found g hfound hparent hnode hjoins ih =>
      intro g' hg'
      have hold : ∀ v ∈ order root found, top free (found ++ [g]) v = top free found v := by
        intro v hv
        have hne : v ≠ g.node := fun heq => hnode (heq ▸ hv)
        rw [top_snoc, Function.update_of_ne hne]
      rcases List.mem_append.mp hg' with hg' | hg'
      · obtain ⟨l, r, rfl⟩ := List.append_of_mem hg'
        obtain ⟨-, hparent', -, -⟩ := hfound.split rfl
        have hparent'' : g'.parent ∈ order root (l ++ g' :: r) := by
          rw [order_append]
          exact List.mem_append_left _ hparent'
        rw [hold g'.node (List.mem_cons_of_mem _ (List.mem_map_of_mem hg')), hold _ hparent'',
          ih g' hg']
      · rw [List.mem_singleton.mp hg', hold _ hparent, top_snoc, Function.update_self]

/-- What is true of the root, and of a node if it is of its parent. -/
theorem Grown.order_induction (h : Grown ends root found) {P : V → Prop} (hroot : P root)
    (hstep : ∀ g ∈ found, P g.parent → P g.node) : ∀ v ∈ order root found, P v := by
  induction h with
  | nil =>
      intro v hv
      rw [List.mem_singleton.mp hv]
      exact hroot
  | @snoc found g hfound hparent hnode hjoins ih =>
      have hbefore := ih fun g' hg' => hstep g' (List.mem_append_left _ hg')
      intro v hv
      rw [order_append, List.mem_append, List.map_singleton, List.mem_singleton] at hv
      rcases hv with hv | rfl
      · exact hbefore v hv
      · exact hstep g (List.mem_append_right _ (List.mem_singleton.mpr rfl)) (hbefore _ hparent)

theorem Joins.freeStep (h : Joins ends g) (hfree : free g.edge) :
    FreeStep free ends g.node g.parent := ⟨g.edge, hfree, h.symm⟩

/-- A node's top is a top, in its group. -/
theorem Grown.top_spec (h : Grown ends root found) : ∀ v ∈ order root found,
    top free found v ∈ order root found ∧ top free found (top free found v) = top free found v ∧
      Grouped free ends v (top free found v) := by
  refine h.order_induction ?_ fun g hg hparent => ?_
  · rw [h.top_root free]
    exact ⟨List.mem_cons_self, h.top_root free, Relation.ReflTransGen.refl⟩
  · have hnode : g.node ∈ order root found := List.mem_cons_of_mem _ (List.mem_map_of_mem hg)
    by_cases hfree : free g.edge
    · rw [h.top_node free g hg, if_pos hfree]
      exact ⟨hparent.1, hparent.2.1, hparent.2.2.head ((h.joins hg).freeStep free hfree)⟩
    · have htop : top free found g.node = g.node := by
        rw [h.top_node free g hg, if_neg hfree]
      rw [htop]
      exact ⟨hnode, htop, Relation.ReflTransGen.refl⟩

/-- A node over a free edge is no top. -/
theorem Grown.top_parent_ne (h : Grown ends root found) : ∀ g ∈ found,
    top free found g.parent ≠ g.node := by
  induction h with
  | nil => exact fun g hg => absurd hg List.not_mem_nil
  | @snoc found g hfound hparent hnode hjoins ih =>
      have hold : ∀ v ∈ order root found, top free (found ++ [g]) v = top free found v := by
        intro v hv
        have hne : v ≠ g.node := fun heq => hnode (heq ▸ hv)
        rw [top_snoc, Function.update_of_ne hne]
      intro g' hg'
      rcases List.mem_append.mp hg' with hg' | hg'
      · obtain ⟨l, r, rfl⟩ := List.append_of_mem hg'
        have hparent' : g'.parent ∈ order root (l ++ g' :: r) := by
          rw [order_append]
          exact List.mem_append_left _ (hfound.split rfl).2.1
        rw [hold _ hparent']
        exact ih g' hg'
      · rw [List.mem_singleton.mp hg', hold _ hparent]
        exact fun heq => hnode (heq ▸ (hfound.top_spec free _ hparent).1)

/-- The tree has every edge. -/
def Covers (ends : List (V × V)) (found : List (Found V)) : Prop :=
  ∀ i < ends.length, i ∈ found.map Found.edge

variable {free}

theorem Grown.top_eq (h : Grown ends root found) (hcovers : Covers ends found) {u v : V}
    (huv : Grouped free ends u v) : top free found u = top free found v := by
  induction huv with
  | refl => rfl
  | tail _ hstep ih =>
      obtain ⟨i, hfree, hends⟩ := hstep
      have hi : i < ends.length := by
        rcases hends with hends | hends
        · exact (List.getElem?_eq_some_iff.mp hends).1
        · exact (List.getElem?_eq_some_iff.mp hends).1
      obtain ⟨g, hg, rfl⟩ := List.mem_map.mp (hcovers i hi)
      have htop := h.top_node free g hg
      rw [if_pos hfree] at htop
      rw [ih]
      -- the ends of the edge are the node and its parent
      rcases h.joins hg with hjoins | hjoins <;> rcases hends with hends | hends <;>
        rw [hjoins] at hends <;> obtain ⟨rfl, rfl⟩ := Prod.mk.inj (Option.some.inj hends)
      · exact htop.symm
      · exact htop
      · exact htop
      · exact htop.symm

theorem Grown.grouped_iff (h : Grown ends root found) (hcovers : Covers ends found) {u v : V}
    (hu : u ∈ order root found) (hv : v ∈ order root found) :
    Grouped free ends u v ↔ top free found u = top free found v := by
  refine ⟨h.top_eq hcovers, fun heq => ?_⟩
  obtain ⟨-, -, hutop⟩ := h.top_spec free u hu
  obtain ⟨-, -, hvtop⟩ := h.top_spec free v hv
  exact hutop.trans (heq ▸ hvtop.symm)

/-! ### The balance of a top -/

/-- What a flow brings into a set of nodes. -/
theorem sum_balance (f : ℕ → R) (S : Finset V) : ∑ n ∈ S, balance ends f n
    = ∑ i ∈ Finset.range ends.length, ((∑ n ∈ S, coef ends n i : ℤ) : R) * f i := by
  rw [Finset.sum_congr rfl fun n _ => balance_eq_sum f n, Finset.sum_comm]
  refine Finset.sum_congr rfl fun i _ => ?_
  rw [← Finset.sum_mul, Int.cast_sum]

theorem sum_coef {i : ℕ} {a b : V} (h : ends[i]? = some (a, b)) (S : Finset V) :
    ∑ n ∈ S, coef ends n i = (if b ∈ S then 1 else 0) - if a ∈ S then 1 else 0 := by
  have hcoef : ∀ n, coef ends n i = (if b = n then 1 else 0) - if a = n then 1 else 0 := by
    intro n
    rw [coef, h]
    rfl
  rw [Finset.sum_congr rfl fun n _ => hcoef n, Finset.sum_sub_distrib, Finset.sum_ite_eq,
    Finset.sum_ite_eq]

open Classical in
/-- What the given flows bring into the group of a node. -/
noncomputable def supply (free : ℕ → Prop) (ends : List (V × V)) (f : ℕ → R) (v : V) : R :=
  ∑ i ∈ Finset.range ends.length, if free i then 0 else
    match ends[i]? with
    | some (a, b) =>
        (((if Grouped free ends v b then 1 else 0) - if Grouped free ends v a then 1 else 0 : ℤ) : R)
          * f i
    | none => 0

/-- **The balance of a node** of a determined flow: a top takes what its group
is supplied with, any other node is balanced. -/
theorem Grown.balance_eq_supply (h : Grown ends root found) (hcovers : Covers ends found)
    {f : ℕ → R} (hf : Determined free ends found f) {v : V} (hv : v ∈ order root found) :
    balance ends f v = if top free found v = v then supply free ends f v else 0 := by
  have hrest : ∀ u ∈ order root found, top free found u ≠ u → balance ends f u = 0 := by
    intro u hu htop
    rcases List.mem_cons.mp hu with rfl | hu
    · exact absurd (h.top_root free) htop
    · obtain ⟨g, hg, rfl⟩ := List.mem_map.mp hu
      by_cases hfree : free g.edge
      · exact hf g hg hfree
      · refine absurd ?_ htop
        rw [h.top_node free g hg, if_neg hfree]
  split_ifs with htop
  · -- sum the balances over the group of `v`: of them only `v` has one
    set S : Finset V := (order root found).toFinset.filter fun u => top free found u = v with hS
    have hvS : v ∈ S := Finset.mem_filter.mpr ⟨List.mem_toFinset.mpr hv, htop⟩
    have hmem : ∀ u ∈ order root found, u ∈ S ↔ Grouped free ends v u := by
      intro u hu
      rw [h.grouped_iff hcovers hv hu, htop, hS, Finset.mem_filter, List.mem_toFinset,
        and_iff_right hu]
      exact eq_comm
    have hsum : ∑ n ∈ S, balance ends f n = balance ends f v := by
      refine Finset.sum_eq_single_of_mem v hvS fun u hu hne => ?_
      obtain ⟨hu, hutop⟩ := Finset.mem_filter.mp hu
      exact hrest u (List.mem_toFinset.mp hu) fun heq => hne (heq.symm.trans hutop)
    rw [← hsum, sum_balance, supply]
    refine Finset.sum_congr rfl fun i hi => ?_
    obtain ⟨g, hg, rfl⟩ := List.mem_map.mp (hcovers i (Finset.mem_range.mp hi))
    obtain ⟨a, b, hends, ha, hb⟩ : ∃ a b, ends[g.edge]? = some (a, b) ∧ a ∈ order root found ∧
        b ∈ order root found := by
      have hnode : g.node ∈ order root found := List.mem_cons_of_mem _ (List.mem_map_of_mem hg)
      obtain ⟨l, r, hsplit⟩ := List.append_of_mem hg
      have hparent : g.parent ∈ order root found := by
        rw [hsplit, order_append]
        exact List.mem_append_left _ (h.split hsplit).2.1
      rcases h.joins hg with hjoins | hjoins
      · exact ⟨_, _, hjoins, hparent, hnode⟩
      · exact ⟨_, _, hjoins, hnode, hparent⟩
    rw [sum_coef hends, hends]
    by_cases hfree : free g.edge
    · -- a free edge has both its ends in the group, or none
      have hstep : FreeStep free ends a b := ⟨g.edge, hfree, Or.inl hends⟩
      have hboth : b ∈ S ↔ a ∈ S := by
        rw [hmem a ha, hmem b hb]
        exact ⟨fun hb => hb.tail hstep.symm, fun ha => ha.tail hstep⟩
      rw [if_pos hfree]
      simp only [hboth, sub_self, Int.cast_zero, zero_mul]
    · classical
      rw [if_neg hfree, if_congr (hmem b hb) rfl rfl, if_congr (hmem a ha) rfl rfl]
  · exact hrest v hv htop

end Free

end Flow

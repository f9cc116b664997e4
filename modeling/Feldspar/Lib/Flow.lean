/-
Feldspar/Lib/Flow.lean

Flows on a graph given as a list of edges with two ends.

`coef ends n i` is the sign with which edge `i` enters the balance of the node
`n`, and `balance ends f n` the signed sum of a flow there.  A chain is a list
of edges with signs; adding a multiple of a chain to a flow changes the
balances by that multiple of its boundary (`balance_addChain`).

`Grown` is a rooted tree in the order in which its nodes were found.  The path
from the root to a node has the boundary node minus root, so an edge outside
the tree closes a loop with the two paths of its ends, and the loop has no
boundary (`boundary_fundamentalLoop`).
-/
import Mathlib.Algebra.BigOperators.Group.Finset.Basic
import Mathlib.Algebra.BigOperators.Ring.Finset
import Mathlib.Algebra.Order.Ring.Int
import Mathlib.Data.List.Perm.Basic
import Mathlib.Tactic.Ring
import Mathlib.Tactic.LinearCombination

set_option linter.unusedSectionVars false

namespace Flow

variable {V : Type*} [DecidableEq V] {R : Type*} [CommRing R]

/-! ### Balances -/

/-- An edge's contribution to a node: it leaves its first end and enters its
second. -/
def endCoef (e : V × V) (n : V) : ℤ := (if e.2 = n then 1 else 0) - if e.1 = n then 1 else 0

def coef (ends : List (V × V)) (n : V) (i : ℕ) : ℤ :=
  match ends[i]? with
  | some e => endCoef e n
  | none => 0

/-- The ends of edges at a node, with their signs, from the edge `k` on. -/
def incidentFrom (n : V) : List (V × V) → ℕ → List (ℕ × ℤ)
  | [], _ => []
  | (a, b) :: ends, k =>
      ((if a = n then [(k, -1)] else []) ++ if b = n then [(k, 1)] else []) ++
        incidentFrom n ends (k + 1)

/-- The ends of edges at a node. -/
def incident (ends : List (V × V)) (n : V) : List (ℕ × ℤ) := incidentFrom n ends 0

/-- The value of a flow on a list of edges with signs. -/
def along (chain : List (ℕ × ℤ)) (f : ℕ → R) : R := (chain.map fun p => (p.2 : R) * f p.1).sum

/-- The signed sum of the flows at a node. -/
def balance (ends : List (V × V)) (f : ℕ → R) (n : V) : R := along (incident ends n) f

def boundary (ends : List (V × V)) (chain : List (ℕ × ℤ)) (n : V) : ℤ :=
  (chain.map fun p => p.2 * coef ends n p.1).sum

section Balance

variable {ends : List (V × V)} {f : ℕ → R} {n : V} {i : ℕ}

theorem along_append (c c' : List (ℕ × ℤ)) : along (c ++ c') f = along c f + along c' f := by
  rw [along, List.map_append, List.sum_append]
  rfl

theorem along_incidentFrom (n : V) (f : ℕ → R) : ∀ (ends : List (V × V)) (k : ℕ),
    along (incidentFrom n ends k) f
      = ∑ i ∈ Finset.range ends.length, (coef ends n i : R) * f (k + i)
  | [], k => rfl
  | (a, b) :: ends, k => by
      rw [incidentFrom, along_append, along_incidentFrom n f ends (k + 1), List.length_cons,
        Finset.sum_range_succ', add_comm]
      congr 1
      · refine Finset.sum_congr rfl fun i _ => ?_
        rw [show k + 1 + i = k + (i + 1) by omega]
        rfl
      · show along _ f = (endCoef (a, b) n : R) * f (k + 0)
        unfold along endCoef
        split_ifs <;> simp

theorem balance_eq_sum (f : ℕ → R) (n : V) :
    balance ends f n = ∑ i ∈ Finset.range ends.length, (coef ends n i : R) * f i := by
  rw [balance, incident, along_incidentFrom]
  simp only [Nat.zero_add]

theorem coef_of_length_le (h : ends.length ≤ i) : coef ends n i = 0 := by
  rw [coef, List.getElem?_eq_none h]

/-- A change of one edge's flow. -/
theorem balance_update (x : R) :
    balance ends (Function.update f i x) n = balance ends f n + coef ends n i * (x - f i) := by
  have hsplit : ∀ j, (coef ends n j : R) * Function.update f i x j
      = coef ends n j * f j + if j = i then (coef ends n i : R) * (x - f i) else 0 := by
    intro j
    by_cases hj : j = i
    · subst hj
      rw [Function.update_self, if_pos rfl]
      ring
    · rw [Function.update_of_ne hj, if_neg hj, add_zero]
  rw [balance_eq_sum, balance_eq_sum, Finset.sum_congr rfl fun j _ => hsplit j,
    Finset.sum_add_distrib, Finset.sum_ite_eq']
  congr 1
  split_ifs with hi
  · rfl
  · rw [coef_of_length_le (by simpa using hi), Int.cast_zero, zero_mul]

/-- The balance without the edge `i`. -/
theorem along_filter_ne (i : ℕ) :
    along ((incident ends n).filter fun p => p.1 ≠ i) f = balance ends f n - coef ends n i * f i := by
  have hzero : ∀ chain : List (ℕ × ℤ), along (chain.filter fun p => p.1 ≠ i) f
      = along chain (Function.update f i 0) := by
    intro chain
    induction chain with
    | nil => rfl
    | cons p chain ih =>
        by_cases hp : p.1 = i
        · rw [List.filter_cons_of_neg (by simpa using hp), ih]
          simp [along, hp]
        · rw [List.filter_cons_of_pos (by simpa using hp)]
          simp only [along, List.map_cons, List.sum_cons] at ih ⊢
          rw [ih, Function.update_of_ne hp]
  rw [hzero, show along (incident ends n) (Function.update f i 0)
    = balance ends (Function.update f i 0) n from rfl, balance_update]
  ring

/-- Add a multiple of a chain to a flow. -/
def addChain (f : ℕ → R) (x : R) (chain : List (ℕ × ℤ)) : ℕ → R :=
  chain.foldl (fun f p => Function.update f p.1 (f p.1 + p.2 * x)) f

theorem balance_addChain (x : R) (chain : List (ℕ × ℤ)) :
    balance ends (addChain f x chain) n = balance ends f n + boundary ends chain n * x := by
  induction chain generalizing f with
  | nil => simp [addChain, boundary]
  | cons p chain ih =>
      show balance ends (addChain (Function.update f p.1 (f p.1 + p.2 * x)) x chain) n = _
      rw [ih, balance_update]
      simp only [boundary, List.map_cons, List.sum_cons]
      push_cast
      ring

theorem addChain_zero (chain : List (ℕ × ℤ)) : addChain f 0 chain = f := by
  induction chain generalizing f with
  | nil => rfl
  | cons p chain ih =>
      show addChain (Function.update f p.1 (f p.1 + p.2 * 0)) 0 chain = f
      rw [mul_zero, add_zero, Function.update_eq_self, ih]

end Balance

/-! ### Trees -/

/-- A node, the node it was found from, and the edge between them. -/
structure Found (V : Type*) where
  node : V
  parent : V
  edge : ℕ

/-- The nodes in the order they were found. -/
def order (root : V) (found : List (Found V)) : List V := root :: found.map Found.node

/-- The edge joins the two nodes, in one direction or the other. -/
def Joins (ends : List (V × V)) (g : Found V) : Prop :=
  ends[g.edge]? = some (g.parent, g.node) ∨ ends[g.edge]? = some (g.node, g.parent)

/-- A tree grown from its root: every node is found once, from one found
before it. -/
inductive Grown (ends : List (V × V)) (root : V) : List (Found V) → Prop
  | nil : Grown ends root []
  | snoc {found g} : Grown ends root found → g.parent ∈ order root found →
      g.node ∉ order root found → Joins ends g → Grown ends root (found ++ [g])

/-- +1 where the edge leads to the node found, -1 where it comes from it. -/
def foundSign (ends : List (V × V)) (g : Found V) : ℤ :=
  if ends[g.edge]?.map Prod.snd = some g.node then 1 else -1

/-- The edge, with its sign from the root on. -/
def step (ends : List (V × V)) (g : Found V) : ℕ × ℤ := (g.edge, foundSign ends g)

/-- The path up to the root, of at most `k` edges. -/
def pathToRoot (ends : List (V × V)) (found : List (Found V)) : ℕ → V → List (ℕ × ℤ)
  | 0, _ => []
  | k + 1, n =>
      match found.find? fun g => g.node = n with
      | none => []
      | some g => step ends g :: pathToRoot ends found k g.parent

section Tree

variable {ends : List (V × V)} {root : V} {found l r : List (Found V)} {g : Found V} {n : V}

theorem order_append (l r : List (Found V)) :
    order root (l ++ r) = order root l ++ r.map Found.node := by
  rw [order, List.map_append]
  rfl

/-- What is known of a node, at the point where it was found. -/
theorem Grown.split (h : Grown ends root found) : ∀ {l r : List (Found V)} {g : Found V},
    found = l ++ g :: r → Grown ends root l ∧ g.parent ∈ order root l ∧ g.node ∉ order root l ∧
      Joins ends g := by
  induction h with
  | nil =>
      intro l r g hsplit
      cases l <;> cases hsplit
  | @snoc found g' hfound hparent hnode hjoins ih =>
      intro l r g hsplit
      rcases List.eq_nil_or_concat r with rfl | ⟨r, x, rfl⟩
      · obtain ⟨rfl, hg⟩ := List.append_inj' hsplit rfl
        cases hg
        exact ⟨hfound, hparent, hnode, hjoins⟩
      · rw [List.concat_eq_append, ← List.cons_append, ← List.append_assoc] at hsplit
        obtain ⟨rfl, -⟩ := List.append_inj' hsplit rfl
        exact ih rfl

theorem Grown.joins (h : Grown ends root found) (hg : g ∈ found) : Joins ends g := by
  obtain ⟨l, r, hsplit⟩ := List.append_of_mem hg
  exact (h.split hsplit).2.2.2

theorem Grown.nodup_order (h : Grown ends root found) : (order root found).Nodup := by
  induction h with
  | nil => exact List.nodup_singleton root
  | @snoc found g _ _ hnode _ ih =>
      rw [order_append]
      exact List.nodup_append'.mpr ⟨ih, List.nodup_singleton _, by simpa using hnode⟩

theorem parent_ne_node (hparent : g.parent ∈ order root l) (hnode : g.node ∉ order root l) :
    g.parent ≠ g.node :=
  fun heq => hnode (heq ▸ hparent)

/-- No edge finds two nodes. -/
theorem Grown.nodup_edges (h : Grown ends root found) : (found.map Found.edge).Nodup := by
  induction h with
  | nil => exact List.nodup_nil
  | @snoc found g hfound hparent hnode hjoins ih =>
      rw [List.map_append]
      refine List.nodup_append'.mpr ⟨ih, List.nodup_singleton _, ?_⟩
      rw [List.map_singleton, List.disjoint_singleton]
      intro hmem
      obtain ⟨g', hg', hedge⟩ := List.mem_map.mp hmem
      obtain ⟨l, r, rfl⟩ := List.append_of_mem hg'
      obtain ⟨-, hparent', -, hjoins'⟩ := hfound.split rfl
      -- the earlier node and its parent are the ends of the edge, and both are found
      have hnode' : g'.node ∈ order root (l ++ g' :: r) :=
        List.mem_cons_of_mem _ (List.mem_map_of_mem hg')
      have hparent'' : g'.parent ∈ order root (l ++ g' :: r) := by
        rw [order_append]
        exact List.mem_append_left _ hparent'
      unfold Joins at hjoins hjoins'
      rw [hedge] at hjoins'
      rcases hjoins' with h' | h' <;> rcases hjoins with h | h <;> rw [h'] at h <;>
        obtain ⟨h₁, h₂⟩ := Prod.mk.inj (Option.some.inj h)
      · exact hnode (h₂ ▸ hnode')
      · exact hnode (h₁ ▸ hparent'')
      · exact hnode (h₂ ▸ hparent'')
      · exact hnode (h₁ ▸ hnode')

/-- A step from the parent to the node. -/
theorem coef_step (hjoins : Joins ends g) (hne : g.parent ≠ g.node) (m : V) :
    (step ends g).2 * coef ends m (step ends g).1
      = (if g.node = m then 1 else 0) - if g.parent = m then 1 else 0 := by
  unfold step foundSign coef
  rcases hjoins with h | h <;> simp only [h, Option.map_some, Option.some.injEq, endCoef]
  · simp
  · rw [if_neg hne]
    ring

/-- The step's sign is the coefficient of its edge at its node. -/
theorem coef_node (hjoins : Joins ends g) (hne : g.parent ≠ g.node) :
    coef ends g.node g.edge = if ends[g.edge]?.map Prod.fst = some g.node then -1 else 1 := by
  unfold coef
  rcases hjoins with h | h <;> simp only [h, Option.map_some, Option.some.injEq, endCoef]
  · simp [hne]
  · simp [hne]

/-- The edge of a node found later touches no other node found before. -/
theorem coef_eq_zero (hjoins : Joins ends g) {m : V} (hnode : g.node ≠ m) (hparent : g.parent ≠ m) :
    coef ends m g.edge = 0 := by
  unfold coef
  rcases hjoins with h | h <;> simp [h, endCoef, hnode, hparent]

theorem find?_node (h : Grown ends root (l ++ g :: r)) :
    ((l ++ g :: r).find? fun g' => g'.node = g.node) = some g := by
  obtain ⟨-, -, hnode, -⟩ := h.split rfl
  rw [List.find?_append, List.find?_eq_none.mpr, Option.none_or,
    List.find?_cons_of_pos (by simp)]
  intro g' hg' heq
  exact hnode (of_decide_eq_true heq ▸ List.mem_cons_of_mem _ (List.mem_map_of_mem hg'))

theorem find?_root (h : Grown ends root found) : (found.find? fun g => g.node = root) = none := by
  rw [List.find?_eq_none]
  intro g hg heq
  exact (List.nodup_cons.mp h.nodup_order).1 (of_decide_eq_true heq ▸ List.mem_map_of_mem hg)

/-- The path of a node among the first ones found: its boundary, and that it
goes back through the order of finding. -/
theorem path_spec (h : Grown ends root found) : ∀ (k : ℕ) {l r : List (Found V)} {n : V},
    found = l ++ r → n ∈ order root l → l.length ≤ k →
      (∀ m, boundary ends (pathToRoot ends found k n) m
        = (if n = m then 1 else 0) - if root = m then 1 else 0) ∧
      (pathToRoot ends found k n).Sublist (l.reverse.map (step ends)) := by
  intro k
  induction k with
  | zero =>
      intro l r n _ hn hk
      obtain rfl : l = [] := List.eq_nil_of_length_eq_zero (Nat.le_zero.mp hk)
      obtain rfl : n = root := by simpa [order] using hn
      exact ⟨fun m => by simp [pathToRoot, boundary], List.nil_sublist _⟩
  | succ k ih =>
      intro l r n hfound hn hk
      rcases List.mem_cons.mp hn with rfl | hn
      · rw [pathToRoot, find?_root h]
        exact ⟨fun m => by simp [boundary], List.nil_sublist _⟩
      · obtain ⟨g, hg, rfl⟩ := List.mem_map.mp hn
        obtain ⟨l₁, l₂, rfl⟩ := List.append_of_mem hg
        rw [List.append_assoc, List.cons_append] at hfound
        subst hfound
        obtain ⟨-, hparent, hnode, hjoins⟩ := h.split rfl
        have hlen : l₁.length ≤ k := by
          simp only [List.length_append, List.length_cons] at hk
          omega
        -- the path of `g` is its own step, and then the path of its parent, found before it
        obtain ⟨hboundary, hsub⟩ := ih rfl hparent hlen
        rw [pathToRoot, find?_node h]
        constructor
        · intro m
          have hstep := coef_step hjoins (parent_ne_node hparent hnode) m
          have hrest := hboundary m
          simp only [boundary, List.map_cons, List.sum_cons] at hrest ⊢
          rw [hrest, hstep]
          ring
        · have hprefix : (step ends g :: l₁.reverse.map (step ends)).Sublist
              ((l₁ ++ g :: l₂).reverse.map (step ends)) := by
            simp only [List.reverse_append, List.reverse_cons, List.append_assoc, List.map_append]
            exact List.sublist_append_right _ _
          exact (hsub.cons_cons _).trans hprefix

/-- The edges that two chains have in common. -/
def common (c c' : List (ℕ × ℤ)) (p : ℕ × ℤ) : Bool :=
  (c.map Prod.fst).contains p.1 && (c'.map Prod.fst).contains p.1

/-- The loop that the edge `i` from `a` to `b` closes with the tree. -/
def fundamentalLoop (i : ℕ) (aPath bPath : List (ℕ × ℤ)) : List (ℕ × ℤ) :=
  (i, 1) :: (aPath.filter fun p => !common aPath bPath p) ++
    (bPath.filter fun p => !common aPath bPath p).map fun p => (p.1, -p.2)

theorem boundary_append (c c' : List (ℕ × ℤ)) (n : V) :
    boundary ends (c ++ c') n = boundary ends c n + boundary ends c' n := by
  rw [boundary, List.map_append, List.sum_append]
  rfl

theorem boundary_neg (c : List (ℕ × ℤ)) (n : V) :
    boundary ends (c.map fun p => (p.1, -p.2)) n = -boundary ends c n := by
  induction c with
  | nil => rfl
  | cons p c ih =>
      simp only [boundary, List.map_cons, List.sum_cons] at ih ⊢
      rw [ih]
      ring

theorem boundary_filter (q : ℕ × ℤ → Bool) (c : List (ℕ × ℤ)) (n : V) :
    boundary ends (c.filter q) n + boundary ends (c.filter fun p => !q p) n
      = boundary ends c n := by
  rw [← boundary_append]
  exact ((List.filter_append_perm q c).map _).sum_eq

/-- The common part of two paths is the same in both. -/
theorem common_perm {c c' : List (ℕ × ℤ)} {steps : List (ℕ × ℤ)}
    (hnodup : (steps.map Prod.fst).Nodup) (hc : c.Sublist steps) (hc' : c'.Sublist steps) :
    (c.filter (common c c')).Perm (c'.filter (common c c')) := by
  have hsteps : steps.Nodup := List.Nodup.of_map _ hnodup
  -- an edge has one sign among the steps
  have hsign : ∀ {p q : ℕ × ℤ}, p ∈ steps → q ∈ steps → p.1 = q.1 → p = q :=
    fun hp hq heq => List.inj_on_of_nodup_map hnodup hp hq heq
  have hmem : ∀ {d d' : List (ℕ × ℤ)}, d.Sublist steps → d'.Sublist steps → ∀ p ∈ d,
      p.1 ∈ d'.map Prod.fst → p ∈ d' := by
    intro d d' hd hd' p hp hp'
    obtain ⟨q, hq, heq⟩ := List.mem_map.mp hp'
    rwa [hsign (hd.subset hp) (hd'.subset hq) heq.symm]
  refine (List.perm_ext_iff_of_nodup ((hsteps.sublist hc).filter _)
    ((hsteps.sublist hc').filter _)).mpr fun p => ?_
  simp only [List.mem_filter, common, Bool.and_eq_true, List.contains_iff_mem]
  constructor
  · rintro ⟨hp, h, h'⟩
    exact ⟨hmem hc hc' p hp h', h, h'⟩
  · rintro ⟨hp, h, h'⟩
    exact ⟨hmem hc' hc p hp h, h, h'⟩

/-- **A fundamental loop has no boundary.** -/
theorem boundary_fundamentalLoop (h : Grown ends root found) {i : ℕ} {a b : V}
    (hedge : ends[i]? = some (a, b)) (ha : a ∈ order root found) (hb : b ∈ order root found)
    (n : V) : boundary ends (fundamentalLoop i (pathToRoot ends found found.length a)
      (pathToRoot ends found found.length b)) n = 0 := by
  obtain ⟨hboundary, hsub⟩ := path_spec h found.length (List.append_nil found).symm ha le_rfl
  obtain ⟨hboundary', hsub'⟩ := path_spec h found.length (List.append_nil found).symm hb le_rfl
  have hnodup : ((found.reverse.map (step ends)).map Prod.fst).Nodup := by
    rw [List.map_map, List.map_reverse]
    exact List.nodup_reverse.mpr h.nodup_edges
  set aPath := pathToRoot ends found found.length a
  set bPath := pathToRoot ends found found.length b
  have hcommon : boundary ends (aPath.filter (common aPath bPath)) n
      = boundary ends (bPath.filter (common aPath bPath)) n :=
    ((common_perm hnodup hsub hsub').map _).sum_eq
  have hfilter : boundary ends _ n + boundary ends _ n = _ :=
    boundary_filter (common aPath bPath) aPath n
  have hfilter' : boundary ends _ n + boundary ends _ n = _ :=
    boundary_filter (common aPath bPath) bPath n
  have hchord : coef ends n i = (if b = n then 1 else 0) - if a = n then 1 else 0 := by
    rw [coef, hedge]
    rfl
  have hloop : boundary ends (fundamentalLoop i aPath bPath) n
      = coef ends n i + boundary ends (aPath.filter fun p => !common aPath bPath p) n
        - boundary ends (bPath.filter fun p => !common aPath bPath p) n := by
    rw [fundamentalLoop, boundary_append, boundary_neg]
    simp only [boundary, List.map_cons, List.sum_cons, one_mul]
    ring
  rw [hloop, hchord]
  linear_combination hfilter - hfilter' + hboundary n - hboundary' n - hcommon

theorem coef_node_sq (hjoins : Joins ends g) (hne : g.parent ≠ g.node) :
    (coef ends g.node g.edge : R) * coef ends g.node g.edge = 1 := by
  rw [coef_node hjoins hne]
  split_ifs <;> simp

/-- An edge of a tree that has not reached a node does not touch it. -/
theorem Grown.coef_eq_zero_of_not_mem (h : Grown ends root found) (hn : n ∉ order root found)
    {g : Found V} (hg : g ∈ found) : coef ends n g.edge = 0 := by
  obtain ⟨l, r, rfl⟩ := List.append_of_mem hg
  obtain ⟨-, hparent, -, hjoins⟩ := h.split rfl
  have hnode : g.node ∈ order root (l ++ g :: r) :=
    List.mem_cons_of_mem _ (List.mem_map_of_mem hg)
  have hparent' : g.parent ∈ order root (l ++ g :: r) := by
    rw [order_append]
    exact List.mem_append_left _ hparent
  exact coef_eq_zero hjoins (fun heq => hn (heq ▸ hnode)) fun heq => hn (heq ▸ hparent')

/-- A flow on a tree is zero if it balances every node that it reaches from the
parent. -/
theorem Grown.eq_zero (h : Grown ends root found) : ∀ {f : ℕ → R},
    (∀ i, f i ≠ 0 → i ∈ found.map Found.edge) →
    (∀ g ∈ found, f g.edge ≠ 0 → balance ends f g.node = 0) → ∀ i, f i = 0 := by
  induction h with
  | nil =>
      intro f hsupport _ i
      by_contra hi
      exact absurd (hsupport i hi) List.not_mem_nil
  | @snoc found g hfound hparent hnode hjoins ih =>
      intro f hsupport hbalance
      have hne := parent_ne_node hparent hnode
      have hzero : f g.edge = 0 := by
        by_contra hf
        -- of the edges with a flow only this one touches the last node
        have hsingle : balance ends f g.node = coef ends g.node g.edge * f g.edge := by
          have hrest : balance ends (Function.update f g.edge 0) g.node = 0 := by
            rw [balance_eq_sum]
            refine Finset.sum_eq_zero fun i _ => ?_
            by_cases hi : i = g.edge
            · rw [hi, Function.update_self, mul_zero]
            · rw [Function.update_of_ne hi]
              by_cases hfi : f i = 0
              · rw [hfi, mul_zero]
              · have hmem := hsupport i hfi
                rw [List.map_append, List.mem_append, List.map_singleton, List.mem_singleton,
                  or_iff_left hi] at hmem
                obtain ⟨g', hg', rfl⟩ := List.mem_map.mp hmem
                rw [hfound.coef_eq_zero_of_not_mem hnode hg', Int.cast_zero, zero_mul]
          rw [balance_update] at hrest
          linear_combination hrest
        have hunit := coef_node_sq (R := R) hjoins hne
        have hlast := hbalance g (List.mem_append_right _ (List.mem_singleton.mpr rfl)) hf
        rw [hsingle] at hlast
        refine hf ?_
        linear_combination (coef ends g.node g.edge : R) * hlast - f g.edge * hunit
      refine ih (fun i hi => ?_) fun g' hg' => hbalance g' (List.mem_append_left _ hg')
      have hmem := hsupport i hi
      rw [List.map_append, List.mem_append, List.map_singleton, List.mem_singleton] at hmem
      exact hmem.resolve_right fun heq => hi (heq ▸ hzero)

/-- The coefficients of a chain. -/
theorem addChain_of_not_mem {f : ℕ → ℤ} {x : ℤ} {chain : List (ℕ × ℤ)} {i : ℕ}
    (hi : i ∉ chain.map Prod.fst) : addChain f x chain i = f i := by
  induction chain generalizing f with
  | nil => rfl
  | cons p chain ih =>
      rw [List.map_cons, List.mem_cons, not_or] at hi
      show addChain (Function.update f p.1 _) x chain i = f i
      rw [ih hi.2, Function.update_of_ne hi.1]

theorem addChain_of_mem {f : ℕ → ℤ} {x : ℤ} {chain : List (ℕ × ℤ)}
    (hnodup : (chain.map Prod.fst).Nodup) {p : ℕ × ℤ} (hp : p ∈ chain) :
    addChain f x chain p.1 = f p.1 + p.2 * x := by
  induction chain generalizing f with
  | nil => cases hp
  | cons q chain ih =>
      rw [List.map_cons, List.nodup_cons] at hnodup
      show addChain (Function.update f q.1 _) x chain p.1 = _
      rcases List.mem_cons.mp hp with rfl | hp
      · rw [addChain_of_not_mem hnodup.1, Function.update_self]
        rfl
      · have hne : p.1 ≠ q.1 := fun heq => hnodup.1 (heq ▸ List.mem_map_of_mem hp)
        rw [ih hnodup.2 hp, Function.update_of_ne hne]

/-- A chain of edges of the tree with no boundary is empty. -/
theorem Grown.chain_eq_nil (h : Grown ends root found) {chain : List (ℕ × ℤ)}
    (hnodup : (chain.map Prod.fst).Nodup) (hsign : ∀ p ∈ chain, p.2 ≠ 0)
    (htree : ∀ p ∈ chain, p.1 ∈ found.map Found.edge)
    (hboundary : ∀ n, boundary ends chain n = 0) : chain = [] := by
  have hzero : ∀ i, addChain (fun _ => (0 : ℤ)) 1 chain i = 0 := by
    refine h.eq_zero (fun i hi => ?_) fun g _ _ => ?_
    · by_contra hnot
      refine hi (addChain_of_not_mem fun hmem => hnot ?_)
      obtain ⟨p, hp, rfl⟩ := List.mem_map.mp hmem
      exact htree p hp
    · rw [balance_addChain, hboundary, balance_eq_sum]
      simp
  rw [List.eq_nil_iff_forall_not_mem]
  intro p hp
  have hp' := hzero p.1
  rw [addChain_of_mem hnodup hp, zero_add, mul_one] at hp'
  exact hsign p hp hp'

theorem sign_pathToRoot : ∀ (k : ℕ) (n : V), ∀ p ∈ pathToRoot ends found k n, p.2 = 1 ∨ p.2 = -1
  | 0, _, p, hp => absurd hp List.not_mem_nil
  | k + 1, n, p, hp => by
      rw [pathToRoot] at hp
      rcases hfind : found.find? fun g => g.node = n with - | g
      · rw [hfind] at hp
        exact absurd hp List.not_mem_nil
      · rw [hfind] at hp
        rcases List.mem_cons.mp hp with rfl | hp
        · show foundSign ends g = 1 ∨ foundSign ends g = -1
          rw [foundSign]
          exact ite_eq_or_eq _ _ _
        · exact sign_pathToRoot k g.parent p hp

/-- Every edge of a fundamental loop is run through once, in one direction or
the other. -/
theorem sign_fundamentalLoop {i : ℕ} {aPath bPath : List (ℕ × ℤ)}
    (ha : ∀ p ∈ aPath, p.2 = 1 ∨ p.2 = -1) (hb : ∀ p ∈ bPath, p.2 = 1 ∨ p.2 = -1) :
    ∀ p ∈ fundamentalLoop i aPath bPath, p.2 = 1 ∨ p.2 = -1 := by
  intro p hp
  rw [fundamentalLoop, List.mem_append, List.mem_cons] at hp
  rcases hp with (rfl | hp) | hp
  · exact Or.inl rfl
  · exact ha p (List.mem_of_mem_filter hp)
  · obtain ⟨q, hq, rfl⟩ := List.mem_map.mp hp
    rcases hb q (List.mem_of_mem_filter hq) with hq | hq
    · exact Or.inr (neg_inj.mpr hq)
    · exact Or.inl (neg_eq_iff_eq_neg.mpr hq)

/-- The edges of a fundamental loop: the edge outside the tree, then distinct
edges of the tree. -/
theorem fundamentalLoop_spec (h : Grown ends root found) {i : ℕ} {a b : V}
    (hi : i ∉ found.map Found.edge) (ha : a ∈ order root found) (hb : b ∈ order root found) :
    ∃ rest, fundamentalLoop i (pathToRoot ends found found.length a)
        (pathToRoot ends found found.length b) = (i, 1) :: rest ∧
      (∀ p ∈ rest, p.2 ≠ 0 ∧ p.1 ∈ found.map Found.edge) ∧
      (((i, 1) :: rest).map Prod.fst).Nodup := by
  obtain ⟨-, hsub⟩ := path_spec h found.length (List.append_nil found).symm ha le_rfl
  obtain ⟨-, hsub'⟩ := path_spec h found.length (List.append_nil found).symm hb le_rfl
  have hnodup : ((found.reverse.map (step ends)).map Prod.fst).Nodup := by
    rw [List.map_map, List.map_reverse]
    exact List.nodup_reverse.mpr h.nodup_edges
  have hsteps : ∀ p ∈ found.reverse.map (step ends), p.2 ≠ 0 ∧ p.1 ∈ found.map Found.edge := by
    intro p hp
    obtain ⟨g, hg, rfl⟩ := List.mem_map.mp hp
    refine ⟨?_, List.mem_map_of_mem (List.mem_reverse.mp hg)⟩
    show foundSign ends g ≠ 0
    unfold foundSign
    split_ifs <;> decide
  set aPath := pathToRoot ends found found.length a
  set bPath := pathToRoot ends found found.length b
  have hrest : ∀ p ∈ (aPath.filter fun p => !common aPath bPath p) ++
      (bPath.filter fun p => !common aPath bPath p).map fun p => (p.1, -p.2),
      p.2 ≠ 0 ∧ p.1 ∈ found.map Found.edge := by
    intro p hp
    rcases List.mem_append.mp hp with hp | hp
    · exact hsteps p (hsub.subset (List.mem_of_mem_filter hp))
    · obtain ⟨q, hq, rfl⟩ := List.mem_map.mp hp
      obtain ⟨hsign, hedge⟩ := hsteps q (hsub'.subset (List.mem_of_mem_filter hq))
      exact ⟨neg_ne_zero.mpr hsign, hedge⟩
  refine ⟨_, rfl, hrest, ?_⟩
  rw [List.map_cons, List.nodup_cons]
  constructor
  · intro hmem
    obtain ⟨p, hp, heq⟩ := List.mem_map.mp hmem
    have hp' : p.1 ∈ found.map Found.edge := (hrest p hp).2
    rw [heq] at hp'
    exact hi hp'
  · have hneg : ∀ c : List (ℕ × ℤ), (c.map fun p => (p.1, -p.2)).map Prod.fst = c.map Prod.fst :=
      fun c => by rw [List.map_map]; rfl
    show (((aPath.filter _) ++ (bPath.filter _).map _).map Prod.fst).Nodup
    rw [List.map_append, hneg]
    refine List.nodup_append'.mpr ⟨?_, ?_, ?_⟩
    · exact hnodup.sublist ((List.filter_sublist.trans hsub).map _)
    · exact hnodup.sublist ((List.filter_sublist.trans hsub').map _)
    · -- an edge on both paths is a common one
      intro k hk hk'
      obtain ⟨p, hp, rfl⟩ := List.mem_map.mp hk
      obtain ⟨q, hq, heq⟩ := List.mem_map.mp hk'
      obtain ⟨hp, hcommon⟩ := List.mem_filter.mp hp
      have hq' : p.1 ∈ bPath.map Prod.fst := heq ▸ List.mem_map_of_mem (List.mem_of_mem_filter hq)
      have hp' : p.1 ∈ aPath.map Prod.fst := List.mem_map_of_mem hp
      simp [common, hp', hq'] at hcommon

end Tree

end Flow

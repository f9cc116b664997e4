/-
Feldspar/Lib/Potential.lean

Potentials on a graph with a spanning tree.

Every edge has a drop, from its first end to its second.  The drops along the
tree give a node its head over the root (`head`); what an edge drops beyond the
difference of the heads of its ends is its residual (`residual`), which is zero
on the tree and, on an edge outside of it, the sum around the loop that the
edge closes (`along_fundamentalLoop`).

The drops along a walk are the difference of the heads of its ends and the
residuals on the way (`sum_walk`).  A flow without sources does work against
the residuals only, since the heads cancel node by node (`sum_mul_drop`).
-/
import Feldspar.Lib.Flow
import Mathlib.Algebra.BigOperators.Group.Finset.Sigma

set_option linter.unusedSectionVars false

namespace Flow

variable {V : Type*} [DecidableEq V] {R : Type*} [CommRing R]
variable {ends : List (V × V)} {root : V} {found : List (Found V)} {h : ℕ → R}

/-! ### Sums along chains -/

theorem along_cons (p : ℕ × ℤ) (c : List (ℕ × ℤ)) (h : ℕ → R) :
    along (p :: c) h = p.2 * h p.1 + along c h := by
  simp only [along, List.map_cons, List.sum_cons]

theorem along_neg (c : List (ℕ × ℤ)) (h : ℕ → R) :
    along (c.map fun p => (p.1, -p.2)) h = -along c h := by
  induction c with
  | nil => simp [along]
  | cons p c ih =>
      rw [List.map_cons, along_cons, along_cons, ih]
      push_cast
      ring

theorem along_filter_add (q : ℕ × ℤ → Bool) (c : List (ℕ × ℤ)) (h : ℕ → R) :
    along (c.filter q) h + along (c.filter fun p => !q p) h = along c h := by
  rw [← along_append]
  exact ((List.filter_append_perm q c).map _).sum_eq

/-! ### Heads -/

/-- The head of a node over the root, along the tree. -/
def head (ends : List (V × V)) (found : List (Found V)) (h : ℕ → R) (n : V) : R :=
  along (pathToRoot ends found found.length n) h

/-- What an edge drops beyond the difference of the heads of its ends. -/
def residual (ends : List (V × V)) (found : List (Found V)) (h : ℕ → R) (i : ℕ) : R :=
  match ends[i]? with
  | some e => h i - (head ends found h e.2 - head ends found h e.1)
  | none => 0

/-- The path to the root needs no more fuel than there are nodes found before. -/
theorem Grown.pathToRoot_fuel (hgrown : Grown ends root found) : ∀ (k k' : ℕ)
    {l r : List (Found V)} {n : V}, found = l ++ r → n ∈ order root l → l.length ≤ k →
      l.length ≤ k' → pathToRoot ends found k n = pathToRoot ends found k' n := by
  intro k
  induction k with
  | zero =>
      intro k' l r n _ hn hk _
      obtain rfl : l = [] := List.eq_nil_of_length_eq_zero (Nat.le_zero.mp hk)
      obtain rfl : n = root := by simpa [order] using hn
      cases k' with
      | zero => rfl
      | succ k' => rw [pathToRoot, pathToRoot, find?_root hgrown]
  | succ k ih =>
      intro k' l r n hfound hn hk hk'
      rcases List.mem_cons.mp hn with rfl | hn
      · cases k' with
        | zero => rw [pathToRoot, pathToRoot, find?_root hgrown]
        | succ k' => rw [pathToRoot, pathToRoot, find?_root hgrown]
      · obtain ⟨g, hg, rfl⟩ := List.mem_map.mp hn
        obtain ⟨l₁, l₂, rfl⟩ := List.append_of_mem hg
        rw [List.append_assoc, List.cons_append] at hfound
        subst hfound
        obtain ⟨-, hparent, -, -⟩ := hgrown.split rfl
        rw [List.length_append, List.length_cons] at hk hk'
        obtain ⟨k', rfl⟩ : ∃ m, k' = m + 1 := ⟨k' - 1, by omega⟩
        rw [pathToRoot, pathToRoot, find?_node hgrown]
        exact congrArg _ (ih k' rfl hparent (by omega) (by omega))

theorem pathToRoot_root (hgrown : Grown ends root found) (k : ℕ) :
    pathToRoot ends found k root = [] := by
  cases k with
  | zero => rfl
  | succ k => rw [pathToRoot, find?_root hgrown]

/-- The path of a node is its own step, and then the path of its parent. -/
theorem pathToRoot_node (hgrown : Grown ends root found) {g : Found V} (hg : g ∈ found) :
    pathToRoot ends found found.length g.node
      = step ends g :: pathToRoot ends found found.length g.parent := by
  obtain ⟨l, r, hsplit⟩ := List.append_of_mem hg
  obtain ⟨-, hparent, -, -⟩ := hgrown.split hsplit
  have hfind : (found.find? fun g' => g'.node = g.node) = some g := by
    subst hsplit
    exact find?_node hgrown
  have hlength : found.length = l.length + r.length + 1 := by
    rw [hsplit, List.length_append, List.length_cons]
    omega
  rw [hgrown.pathToRoot_fuel found.length (l.length + r.length) hsplit hparent (by omega)
    (by omega), hlength, pathToRoot, hfind]

/-- A path has edges of the tree only. -/
theorem edge_mem_of_mem_pathToRoot : ∀ {k : ℕ} {n : V} {p : ℕ × ℤ},
    p ∈ pathToRoot ends found k n → p.1 ∈ found.map Found.edge
  | 0, _, _, hp => absurd hp List.not_mem_nil
  | k + 1, n, p, hp => by
      rw [pathToRoot] at hp
      rcases hfind : found.find? fun g => g.node = n with - | g
      · rw [hfind] at hp
        exact absurd hp List.not_mem_nil
      · rw [hfind] at hp
        rcases List.mem_cons.mp hp with rfl | hp
        · exact List.mem_map_of_mem (List.mem_of_find?_eq_some hfind)
        · exact edge_mem_of_mem_pathToRoot hp

/-- A node's head is its parent's, and the drop of the edge between them. -/
theorem head_node (hgrown : Grown ends root found) {g : Found V} (hg : g ∈ found) :
    head ends found h g.node = (step ends g).2 * h g.edge + head ends found h g.parent := by
  rw [head, pathToRoot_node hgrown hg]
  exact along_cons _ _ h

/-- The edges of the tree have no residual. -/
theorem residual_tree (hgrown : Grown ends root found) {i : ℕ}
    (hi : i ∈ found.map Found.edge) : residual ends found h i = 0 := by
  obtain ⟨g, hg, rfl⟩ := List.mem_map.mp hi
  have hhead := head_node (h := h) hgrown hg
  obtain ⟨l, r, hsplit⟩ := List.append_of_mem hg
  obtain ⟨-, hparent, hnode, hjoins⟩ := hgrown.split hsplit
  have hne := parent_ne_node hparent hnode
  unfold residual
  unfold step foundSign at hhead
  rcases hjoins with hends | hends
  · rw [hends, Option.map_some, if_pos rfl] at hhead
    rw [hends]
    simp only at hhead ⊢
    rw [hhead]
    push_cast
    ring
  · rw [hends, Option.map_some, if_neg fun heq => hne (Option.some.inj heq)] at hhead
    rw [hends]
    simp only at hhead ⊢
    rw [hhead]
    push_cast
    ring

/-- **The drops around a fundamental loop** are the residual of the edge that
closes it. -/
theorem along_fundamentalLoop (hgrown : Grown ends root found) {i : ℕ} {a b : V}
    (hedge : ends[i]? = some (a, b)) (ha : a ∈ order root found) (hb : b ∈ order root found) :
    along (fundamentalLoop i (pathToRoot ends found found.length a)
      (pathToRoot ends found found.length b)) h = residual ends found h i := by
  obtain ⟨-, hsub⟩ := path_spec hgrown found.length (List.append_nil found).symm ha le_rfl
  obtain ⟨-, hsub'⟩ := path_spec hgrown found.length (List.append_nil found).symm hb le_rfl
  have hnodup : ((found.reverse.map (step ends)).map Prod.fst).Nodup := by
    rw [List.map_map, List.map_reverse]
    exact List.nodup_reverse.mpr hgrown.nodup_edges
  rw [residual, hedge]
  show _ = h i - (along (pathToRoot ends found found.length b) h
    - along (pathToRoot ends found found.length a) h)
  set aPath := pathToRoot ends found found.length a
  set bPath := pathToRoot ends found found.length b
  -- the common part of the two paths cancels
  have hcommon : along (aPath.filter (common aPath bPath)) h
      = along (bPath.filter (common aPath bPath)) h :=
    ((common_perm hnodup hsub hsub').map _).sum_eq
  have hfilter := along_filter_add (common aPath bPath) aPath h
  have hfilter' := along_filter_add (common aPath bPath) bPath h
  rw [fundamentalLoop, along_append, along_neg, along_cons]
  push_cast
  linear_combination hfilter - hfilter' - hcommon

/-! ### Walks -/

/-- A walk along the edges, with the sense in which each of them is run
through. -/
inductive Walk (ends : List (V × V)) : V → List (ℕ × ℤ) → V → Prop
  | nil {u} : Walk ends u [] u
  | forth {u v x i w} : ends[i]? = some (u, v) → Walk ends v w x → Walk ends u ((i, 1) :: w) x
  | back {u v x i w} : ends[i]? = some (v, u) → Walk ends v w x → Walk ends u ((i, -1) :: w) x

theorem Walk.append {u v x : V} {w w' : List (ℕ × ℤ)} (hw : Walk ends u w v)
    (hw' : Walk ends v w' x) : Walk ends u (w ++ w') x := by
  induction hw with
  | nil => exact hw'
  | forth hends _ ih => exact .forth hends (ih hw')
  | back hends _ ih => exact .back hends (ih hw')

/-- The path of a node is a walk from the root, read backwards. -/
theorem Grown.walk_path (hgrown : Grown ends root found) : ∀ (k : ℕ) {l r : List (Found V)} {n : V},
    found = l ++ r → n ∈ order root l → l.length ≤ k →
      Walk ends root (pathToRoot ends found found.length n).reverse n := by
  intro k
  induction k with
  | zero =>
      intro l r n _ hn hk
      obtain rfl : l = [] := List.eq_nil_of_length_eq_zero (Nat.le_zero.mp hk)
      obtain rfl : n = root := by simpa [order] using hn
      rw [pathToRoot_root hgrown]
      exact .nil
  | succ k ih =>
      intro l r n hfound hn hk
      rcases List.mem_cons.mp hn with rfl | hn
      · rw [pathToRoot_root hgrown]
        exact .nil
      · obtain ⟨g, hg, rfl⟩ := List.mem_map.mp hn
        obtain ⟨l₁, l₂, rfl⟩ := List.append_of_mem hg
        rw [List.append_assoc, List.cons_append] at hfound
        obtain ⟨-, hparent, hnode, hjoins⟩ := hgrown.split hfound
        rw [List.length_append, List.length_cons] at hk
        rw [pathToRoot_node hgrown (hfound ▸ List.mem_append_right _ List.mem_cons_self),
          List.reverse_cons]
        refine (ih hfound hparent (by omega)).append ?_
        unfold step foundSign
        rcases hjoins with hends | hends
        · rw [hends, Option.map_some, if_pos rfl]
          exact .forth hends .nil
        · rw [hends, Option.map_some,
            if_neg fun heq => parent_ne_node hparent hnode (Option.some.inj heq)]
          exact .back hends .nil

/-- **The drops along a walk** are the difference of the heads of its ends, and
the residuals on the way. -/
theorem sum_walk (found : List (Found V)) (h : ℕ → R) {u v : V} {w : List (ℕ × ℤ)}
    (hw : Walk ends u w v) : along w h
      = head ends found h v - head ends found h u + along w (residual ends found h) := by
  induction hw with
  | nil => simp [along]
  | forth hends _ ih =>
      rw [along_cons, along_cons, ih, residual, hends]
      push_cast
      ring
  | back hends _ ih =>
      rw [along_cons, along_cons, ih, residual, hends]
      push_cast
      ring

/-! ### Flows -/

/-- Summation by parts: a flow against the differences of a potential is the
potential against the balances of the flow. -/
theorem sum_mul_sub (p : V → R) (d : ℕ → R) {S : Finset V} :
    ∀ {ends : List (V × V)}, (∀ e ∈ ends, e.1 ∈ S ∧ e.2 ∈ S) →
      ∑ i ∈ Finset.range ends.length,
          d i * ((ends[i]?.map fun e => p e.2 - p e.1).getD 0)
        = ∑ n ∈ S, p n * balance ends d n := by
  intro ends hends
  have hedge : ∀ i ∈ Finset.range ends.length,
      d i * ((ends[i]?.map fun e => p e.2 - p e.1).getD 0)
        = ∑ n ∈ S, p n * ((coef ends n i : R) * d i) := by
    intro i hi
    obtain ⟨e, hget⟩ : ∃ e, ends[i]? = some e :=
      ⟨_, List.getElem?_eq_getElem (Finset.mem_range.mp hi)⟩
    obtain ⟨hfst, hsnd⟩ := hends e (List.mem_of_getElem? hget)
    rw [hget]
    have hcoef : ∀ n, p n * ((coef ends n i : R) * d i)
        = (if e.2 = n then p n * d i else 0) - if e.1 = n then p n * d i else 0 := by
      intro n
      rw [coef, hget]
      simp only [endCoef]
      split_ifs <;> push_cast <;> ring
    rw [Finset.sum_congr rfl fun n _ => hcoef n, Finset.sum_sub_distrib, Finset.sum_ite_eq,
      Finset.sum_ite_eq, if_pos hfst, if_pos hsnd, Option.map_some, Option.getD_some]
    ring
  rw [Finset.sum_congr rfl hedge, Finset.sum_comm]
  refine Finset.sum_congr rfl fun n _ => ?_
  rw [balance_eq_sum, Finset.mul_sum]

/-- **A flow without sources does no work against heads**: what it does against
the drops, it does against the residuals. -/
theorem sum_mul_drop (found : List (Found V)) (h d : ℕ → R)
    (hd : ∀ n, balance ends d n = 0) :
    ∑ i ∈ Finset.range ends.length, d i * h i
      = ∑ i ∈ Finset.range ends.length, d i * residual ends found h i := by
  have hends : ∀ e ∈ ends, e.1 ∈ (ends.flatMap fun e => [e.1, e.2]).toFinset ∧
      e.2 ∈ (ends.flatMap fun e => [e.1, e.2]).toFinset := by
    intro e he
    constructor <;> refine List.mem_toFinset.mpr (List.mem_flatMap.mpr ⟨e, he, ?_⟩) <;> simp
  have hheads := (sum_mul_sub (head ends found h) d hends).trans
    (Finset.sum_eq_zero fun n _ => by rw [hd, mul_zero])
  rw [← sub_eq_zero, ← Finset.sum_sub_distrib, ← hheads]
  refine Finset.sum_congr rfl fun i hi => ?_
  obtain ⟨e, hget⟩ : ∃ e, ends[i]? = some e :=
    ⟨_, List.getElem?_eq_getElem (Finset.mem_range.mp hi)⟩
  rw [residual, hget, Option.map_some, Option.getD_some]
  simp only
  ring

end Flow

/-
Feldspar/CornerOrder.lean

The list of corners (`enumerate_corners` in `propagation.rs`), as a list.

`mem_enumerateCorners` says which points are corners.  Here it is that none of
them comes twice (`nodup_enumerateCorners`), how many there are
(`length_enumerateCorners`), and that each is below the next one at the first
port where they differ (`pairwise_cornerLt`).  The order leaves no choice, so
there is no other such list (`enumerateCorners_spec`).

The comparison of the sort is the order of the lists of values, since all the
corners have the ports of the box (`isLE_cornerCmp`).
-/
import Feldspar.Propagation
import Mathlib.Data.List.Lex

set_option linter.unusedSectionVars false

namespace Feldspar

variable {K : Type} [Field K] [LinearOrder K]

/-! ### The order -/

/-- At the first port where the two differ, `a` is below `b`. -/
def CornerLt (a b : PortMap K) : Prop :=
  ∃ (p : Port) (x y : K), a[p]? = some x ∧ b[p]? = some y ∧ x < y ∧ ∀ q < p, a[q]? = b[q]?

theorem CornerLt.asymm {a b : PortMap K} (h : CornerLt a b) : ¬ CornerLt b a := by
  obtain ⟨p, x, y, hx, hy, hlt, hbefore⟩ := h
  rintro ⟨p', y', x', hy', hx', hlt', hbefore'⟩
  rcases lt_trichotomy p p' with hp | rfl | hp
  · have heq := hbefore' p hp
    rw [hx, hy] at heq
    exact hlt.ne' (Option.some.inj heq)
  · obtain rfl : x = x' := Option.some.inj (hx.symm.trans hx')
    obtain rfl : y = y' := Option.some.inj (hy.symm.trans hy')
    exact hlt.asymm hlt'
  · have heq := hbefore p' hp
    rw [hx', hy'] at heq
    exact hlt'.ne' (Option.some.inj heq)

theorem CornerLt.irrefl (a : PortMap K) : ¬ CornerLt a a := fun h => h.asymm h

theorem cons_le_cons_iff {x y : K} {l l' : List K} :
    x :: l ≤ y :: l' ↔ x < y ∨ x = y ∧ l ≤ l' := by
  have hlt : x :: l < y :: l' ↔ x < y ∨ x = y ∧ l < l' := List.cons_lt_cons_iff
  rw [le_iff_lt_or_eq, hlt, List.cons.injEq, le_iff_lt_or_eq, and_or_left, or_assoc]

/-- A comparison of values that stops at the first difference. -/
theorem isLE_foldr_zip : ∀ {l l' : List K}, l.length = l'.length →
    (((l.zip l').foldr (fun v o => (compare v.1 v.2).then o) .eq).isLE ↔ l ≤ l')
  | [], [], _ => by simp
  | x :: l, y :: l', h => by
      have ih := isLE_foldr_zip (Nat.succ.inj h)
      rw [List.zip_cons_cons, List.foldr_cons, cons_le_cons_iff]
      rcases lt_trichotomy x y with hlt | rfl | hlt
      · rw [compare_lt_iff_lt.mpr hlt]
        simp [hlt]
      · rw [compare_eq_iff_eq.mpr rfl, Ordering.eq_then, ih]
        simp
      · rw [compare_gt_iff_gt.mpr hlt]
        simp [hlt.not_gt, hlt.ne']

/-- The first difference of two lists of values at sorted ports. -/
theorem exists_lt_of_map_lt {f g : Port → K} : ∀ {ports : List Port}, ports.Pairwise (· < ·) →
    ports.map f < ports.map g →
      ∃ p ∈ ports, f p < g p ∧ ∀ q ∈ ports, q < p → f q = g q
  | [], _, h => absurd h (lt_irrefl _)
  | port :: ports, hsorted, h => by
      obtain ⟨hport, hsorted⟩ := List.pairwise_cons.mp hsorted
      rw [List.map_cons, List.map_cons] at h
      rcases List.cons_lt_cons_iff.mp h with hlt | ⟨heq, h⟩
      · refine ⟨port, List.mem_cons_self, hlt, fun q hq hqp => ?_⟩
        rcases List.mem_cons.mp hq with rfl | hq
        · exact absurd hqp (lt_irrefl q)
        · exact absurd hqp (hport q hq).asymm
      · obtain ⟨p, hp, hlt, hbefore⟩ := exists_lt_of_map_lt hsorted h
        refine ⟨p, List.mem_cons_of_mem _ hp, hlt, fun q hq hqp => ?_⟩
        rcases List.mem_cons.mp hq with rfl | hq
        · exact heq
        · exact hbefore q hq hqp

/-! ### Corners of one box -/

section Box

variable {box : PortMap (Interval K)} {a b : PortMap K}

def boxPorts (box : PortMap (Interval K)) : List Port := box.toList.map Prod.fst

theorem pairwise_boxPorts (box : PortMap (Interval K)) : (boxPorts box).Pairwise (· < ·) := by
  rw [boxPorts, List.pairwise_map]
  exact box.ordered_keys_toList.imp compare_lt_iff_lt.mp

theorem mem_boxPorts {p : Port} : p ∈ boxPorts box ↔ p ∈ box := by
  simp [boxPorts]

/-- The values of a corner, port by port. -/
theorem vals_corner (ha : IsCorner box a) :
    OrdMap.vals a = (boxPorts box).map fun p => a[p]?.getD 0 := by
  have hports : a.toList.map Prod.fst = boxPorts box := OrdMap.keys_eq_of_mem_iff ha.keys
  rw [OrdMap.vals, ← hports, List.map_map]
  apply List.map_congr_left
  intro e he
  show e.2 = a[e.1]?.getD 0
  rw [Std.ExtTreeMap.mem_toList_iff_getElem?_eq_some.mp he, Option.getD_some]

theorem isLE_cornerCmp (ha : IsCorner box a) (hb : IsCorner box b) :
    (cornerCmp a b).isLE ↔ OrdMap.vals a ≤ OrdMap.vals b := by
  apply isLE_foldr_zip
  rw [vals_corner ha, vals_corner hb, List.length_map, List.length_map]

theorem cornerLt_of_vals_lt (ha : IsCorner box a) (hb : IsCorner box b)
    (h : OrdMap.vals a < OrdMap.vals b) : CornerLt a b := by
  rw [vals_corner ha, vals_corner hb] at h
  obtain ⟨p, hp, hlt, hbefore⟩ := exists_lt_of_map_lt (pairwise_boxPorts box) h
  have hvalue : ∀ {corner : PortMap K}, IsCorner box corner → ∀ {q}, q ∈ boxPorts box →
      corner[q]? = some (corner[q]?.getD 0) := by
    intro corner hc q hq
    obtain ⟨v, hv⟩ := OrdMap.mem_iff_exists.mp ((hc.keys q).mpr (mem_boxPorts.mp hq))
    rw [hv]
    rfl
  refine ⟨p, _, _, hvalue ha hp, hvalue hb hp, hlt, fun q hq => ?_⟩
  by_cases hmem : q ∈ boxPorts box
  · rw [hvalue ha hmem, hvalue hb hmem, hbefore q hmem hq]
  · have hnone : ∀ {corner : PortMap K}, IsCorner box corner → corner[q]? = none := fun hc =>
      Std.ExtTreeMap.getElem?_eq_none fun hq => hmem (mem_boxPorts.mpr ((hc.keys q).mp hq))
    rw [hnone ha, hnone hb]

theorem eq_of_vals_eq (ha : IsCorner box a) (hb : IsCorner box b)
    (h : OrdMap.vals a = OrdMap.vals b) : a = b := by
  rw [vals_corner ha, vals_corner hb] at h
  have hall := List.map_inj_left.mp h
  refine OrdMap.Rel.of_eq ⟨fun k => (ha.keys k).trans (hb.keys k).symm, fun k x y hx hy => ?_⟩
  have hk : k ∈ boxPorts box :=
    mem_boxPorts.mpr ((ha.keys k).mp (OrdMap.mem_iff_exists.mpr ⟨x, hx⟩))
  have heq := hall k hk
  rwa [hx, hy] at heq

/-! ### The enumeration -/

theorem nodup_cornerCandidates (iv : Interval K) : (cornerCandidates iv).Nodup := by
  rw [cornerCandidates]
  by_cases hiv : iv.lo = iv.hi
  · rw [if_pos hiv]
    exact List.nodup_singleton _
  · rw [if_neg hiv]
    simpa using hiv

/-- The choices for the ports so far are distinct, and those for one more port
keep them apart. -/
theorem nodup_foldl_extendCorners : ∀ l : List (Port × Interval K), (l.map Prod.fst).Nodup →
    (l.foldl extendCorners [∅]).Nodup := by
  intro l
  induction l using List.reverseRecOn with
  | nil => exact fun _ => List.nodup_singleton _
  | append_singleton l e ih =>
      intro hports
      rw [List.map_append, List.nodup_append] at hports
      obtain ⟨hl, -, hdisj⟩ := hports
      have hfresh : ∀ corner ∈ l.foldl extendCorners [∅], corner[e.1]? = none := by
        intro corner hc
        apply Std.ExtTreeMap.getElem?_eq_none
        intro hmem
        have hport := (((mem_foldl_extendCorners l hl corner).mp hc).1 e.1).mp hmem
        exact hdisj e.1 hport e.1 (List.mem_singleton.mpr rfl) rfl
      rw [List.foldl_append, List.foldl_cons, List.foldl_nil, extendCorners, List.nodup_flatMap]
      constructor
      · intro c _
        refine (nodup_cornerCandidates e.2).map fun v w hvw => ?_
        have hat := congrArg (fun m : PortMap K => m[e.1]?) hvw
        simpa [OrdMap.getElem?_insert_eq] using hat
      · refine (ih hl).imp_of_mem fun {c c'} hc hc' hne => ?_
        intro m hm hm'
        obtain ⟨v, -, rfl⟩ := List.mem_map.mp hm
        obtain ⟨w, -, hw⟩ := List.mem_map.mp hm'
        apply hne
        apply Std.ExtTreeMap.ext_getElem?
        intro k
        by_cases hk : e.1 = k
        · subst hk
          rw [hfresh c hc, hfresh c' hc']
        · have hat := congrArg (fun m : PortMap K => m[k]?) hw
          simpa [OrdMap.getElem?_insert_eq, hk] using hat.symm

theorem nodup_enumerateCorners (box : PortMap (Interval K)) : (enumerateCorners box).Nodup :=
  (List.perm_insertionSort _ _).nodup_iff.mpr
    (nodup_foldl_extendCorners _ (OrdMap.nodup_keys_toList box))

/-- The ports whose interval has two ends. -/
def nondegeneratePorts (box : PortMap (Interval K)) : List Port :=
  (box.toList.filter fun e => e.2.lo ≠ e.2.hi).map Prod.fst

theorem length_foldl_extendCorners : ∀ (l : List (Port × Interval K)) (corners : List (PortMap K)),
    (l.foldl extendCorners corners).length
      = corners.length * 2 ^ (l.filter fun e => e.2.lo ≠ e.2.hi).length
  | [], corners => (mul_one _).symm
  | e :: l, corners => by
      have hextend : (extendCorners corners e).length
          = corners.length * (cornerCandidates e.2).length := by
        simp [extendCorners, List.length_flatMap]
      rw [List.foldl_cons, length_foldl_extendCorners l, hextend, cornerCandidates]
      by_cases he : e.2.lo = e.2.hi
      · rw [if_pos he, List.filter_cons_of_neg (by simpa using he)]
        simp
      · rw [if_neg he, List.filter_cons_of_pos (by simpa using he)]
        have hpow : ∀ n : ℕ, corners.length * 2 * 2 ^ n = corners.length * 2 ^ (n + 1) := by
          intro n
          rw [pow_succ', mul_assoc]
        exact hpow _

theorem length_enumerateCorners (box : PortMap (Interval K)) :
    (enumerateCorners box).length = 2 ^ (nondegeneratePorts box).length := by
  rw [enumerateCorners, List.length_insertionSort, length_foldl_extendCorners, List.length_singleton,
    one_mul, nondegeneratePorts, List.length_map]

theorem pairwise_vals (box : PortMap (Interval K)) :
    ((enumerateCorners box).map OrdMap.vals).Pairwise (· ≤ ·) := by
  have hcorner : ∀ c ∈ box.toList.foldl extendCorners [∅], IsCorner box c := fun c hc =>
    mem_enumerateCorners.mp ((List.mem_insertionSort _).mpr hc)
  have hsort : (enumerateCorners box).map OrdMap.vals
      = ((box.toList.foldl extendCorners [∅]).map OrdMap.vals).insertionSort (· ≤ ·) :=
    List.map_insertionSort _ _ _ _
      fun a ha b hb => isLE_cornerCmp (hcorner a ha) (hcorner b hb)
  rw [hsort]
  exact List.pairwise_insertionSort _ _

theorem pairwise_cornerLt (box : PortMap (Interval K)) :
    (enumerateCorners box).Pairwise CornerLt := by
  have hle := List.pairwise_map.mp (pairwise_vals box)
  refine (hle.and (nodup_enumerateCorners box)).imp_of_mem fun {a b} ha hb hab => ?_
  have ha := mem_enumerateCorners.mp ha
  have hb := mem_enumerateCorners.mp hb
  exact cornerLt_of_vals_lt ha hb (lt_of_le_of_ne hab.1 fun heq => hab.2 (eq_of_vals_eq ha hb heq))

/-- **The corners of a box**: every choice of one end per port, once, in
increasing order, and this is the only such list. -/
theorem enumerateCorners_spec (box : PortMap (Interval K)) :
    (∀ c, c ∈ enumerateCorners box ↔ IsCorner box c) ∧
      (enumerateCorners box).Nodup ∧
      (enumerateCorners box).length = 2 ^ (nondegeneratePorts box).length ∧
      (enumerateCorners box).Pairwise CornerLt ∧
      ∀ corners : List (PortMap K), (∀ c, c ∈ corners ↔ IsCorner box c) →
        corners.Pairwise CornerLt → corners = enumerateCorners box := by
  refine ⟨fun _ => mem_enumerateCorners, nodup_enumerateCorners box, length_enumerateCorners box,
    pairwise_cornerLt box, fun corners hmem hsorted => ?_⟩
  have hnodup : corners.Nodup := by
    refine hsorted.imp fun {a b} hab => ?_
    rintro rfl
    exact CornerLt.irrefl a hab
  have hperm : corners.Perm (enumerateCorners box) :=
    (List.perm_ext_iff_of_nodup hnodup (nodup_enumerateCorners box)).mpr fun c =>
      (hmem c).trans mem_enumerateCorners.symm
  exact hperm.eq_of_pairwise (fun _ _ _ _ hab hba => absurd hba hab.asymm) hsorted
    (pairwise_cornerLt box)

end Box

end Feldspar

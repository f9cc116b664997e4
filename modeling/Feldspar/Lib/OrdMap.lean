/-
Feldspar/Lib/OrdMap.lean

Ordered finite maps, as `Std.ExtTreeMap κ α compare`: iteration is in key
order and two maps with the same lookups are equal.  `Std` has the lookup
lemmas; this file adds what programs over such maps need on top of them:

* `ofFn ks f`, the map that sends each key of a list to its value;
* lookups in a map folded into another one entry by entry (`foldAlter`);
* `Rel R m m'`, the pointwise relation of two maps with the same keys, with
  the rule that turns it into a `List.Forall₂` of the two entry lists, and
  from there into an inequality of sums.
-/
import Mathlib.Algebra.Order.BigOperators.Group.List
import Mathlib.Data.List.Forall2
import Std.Data.ExtTreeMap.Lemmas

namespace OrdMap

variable {κ α β γ δ : Type*} [Ord κ]

/-- Finite maps iterated in key order. -/
abbrev Map (κ : Type*) (α : Type*) [Ord κ] := Std.ExtTreeMap κ α compare

variable [Std.TransOrd κ] [Std.LawfulEqOrd κ]

/-! ### Lookups -/

theorem getElem?_insert_eq [DecidableEq κ] (m : Map κ α) (k a : κ) (v : α) :
    (m.insert k v)[a]? = if k = a then some v else m[a]? := by
  simp [Std.ExtTreeMap.getElem?_insert]

theorem getElem?_alter_eq [DecidableEq κ] (m : Map κ α) (k a : κ)
    (f : Option α → Option α) :
    (m.alter k f)[a]? = if k = a then f m[k]? else m[a]? := by
  simp [Std.ExtTreeMap.getElem?_alter]

omit [Std.LawfulEqOrd κ] in
theorem mem_iff_exists {m : Map κ α} {k : κ} : k ∈ m ↔ ∃ v, m[k]? = some v := by
  rw [Std.ExtTreeMap.mem_iff_isSome_getElem?, Option.isSome_iff_exists]

/-! ### Maps made from a list of keys -/

/-- The map that sends every key `k` of `ks` to `f k`. -/
def ofFn (ks : List κ) (f : κ → α) : Map κ α :=
  ks.foldl (fun m k => m.insert k (f k)) ∅

theorem getElem?_foldl_insert [DecidableEq κ] (f : κ → α) (a : κ) :
    ∀ (ks : List κ) (m : Map κ α),
      (ks.foldl (fun m k => m.insert k (f k)) m)[a]?
        = if a ∈ ks then some (f a) else m[a]?
  | [], m => by simp
  | k :: ks, m => by
      rw [List.foldl_cons, getElem?_foldl_insert f a ks, getElem?_insert_eq]
      by_cases hk : k = a
      · subst hk; simp
      · simp [hk, Ne.symm hk]

theorem getElem?_ofFn [DecidableEq κ] (ks : List κ) (f : κ → α) (a : κ) :
    (ofFn ks f)[a]? = if a ∈ ks then some (f a) else none := by
  rw [ofFn, getElem?_foldl_insert]
  simp

theorem getElem?_ofFn_eq_some [DecidableEq κ] {ks : List κ} {f : κ → α} {a : κ} {v : α} :
    (ofFn ks f)[a]? = some v ↔ a ∈ ks ∧ f a = v := by
  rw [getElem?_ofFn]
  split <;> simp_all

theorem map_ofFn [DecidableEq κ] (ks : List κ) (f : κ → α) (g : κ → α → β) :
    (ofFn ks f).map g = ofFn ks fun k => g k (f k) := by
  apply Std.ExtTreeMap.ext_getElem?
  intro a
  rw [Std.ExtTreeMap.getElem?_map, getElem?_ofFn, getElem?_ofFn]
  split <;> rfl

/-! ### Folding one map into another -/

/-- Fold the entries of `m` into `acc`, each through `f`. -/
def foldAlter (f : α → Option β → Option β) (m : Map κ α) (acc : Map κ β) : Map κ β :=
  m.toList.foldl (fun acc e => acc.alter e.1 (f e.2)) acc

private theorem getElem?_foldl_alter [DecidableEq κ] (f : α → Option β → Option β) (a : κ) :
    ∀ (l : List (κ × α)) (acc : Map κ β), (l.map Prod.fst).Nodup →
      (l.foldl (fun acc e => acc.alter e.1 (f e.2)) acc)[a]?
        = match l.lookup a with
          | some v => f v acc[a]?
          | none => acc[a]?
  | [], acc, _ => by simp
  | (k, v) :: l, acc, hl => by
      simp only [List.map_cons, List.nodup_cons] at hl
      rw [List.foldl_cons, getElem?_foldl_alter f a l _ hl.2, getElem?_alter_eq]
      by_cases hk : k = a
      · subst hk
        have hnone : l.lookup k = none := by
          rw [List.lookup_eq_none_iff]
          intro p hp
          rw [bne_iff_ne]
          exact fun h => hl.1 (List.mem_map.mpr ⟨p, hp, h.symm⟩)
        simp [hnone]
      · have : (a == k) = false := by simp [Ne.symm hk]
        simp [List.lookup_cons, this, hk]

theorem nodup_keys_toList (m : Map κ α) : (m.toList.map Prod.fst).Nodup := by
  have h := m.ordered_keys_toList
  rw [List.Nodup, List.pairwise_map]
  exact h.imp fun {a b} hab he => by simp [he] at hab

theorem lookup_toList [DecidableEq κ] (m : Map κ α) (a : κ) :
    m.toList.lookup a = m[a]? := by
  rcases h : m[a]? with - | v
  · rw [List.lookup_eq_none_iff]
    rintro ⟨k, v⟩ hp
    rw [Std.ExtTreeMap.mem_toList_iff_getElem?_eq_some] at hp
    rw [bne_iff_ne]
    rintro rfl
    rw [h] at hp
    cases hp
  · rw [List.lookup_eq_some_iff]
    have hmem : (a, v) ∈ m.toList :=
      Std.ExtTreeMap.mem_toList_iff_getElem?_eq_some.mpr h
    obtain ⟨l₁, l₂, hl⟩ := List.append_of_mem hmem
    refine ⟨l₁, l₂, hl, ?_⟩
    have hnd := nodup_keys_toList m
    rw [hl] at hnd
    simp only [List.map_append, List.map_cons, List.nodup_append, List.nodup_cons] at hnd
    intro p hp
    rw [bne_iff_ne]
    exact fun he => hnd.2.2 p.1 (List.mem_map.mpr ⟨p, hp, rfl⟩) a (by simp) he.symm

theorem getElem?_foldAlter [DecidableEq κ] (f : α → Option β → Option β)
    (m : Map κ α) (acc : Map κ β) (a : κ) :
    (foldAlter f m acc)[a]?
      = match m[a]? with
        | some v => f v acc[a]?
        | none => acc[a]? := by
  rw [foldAlter, getElem?_foldl_alter f a _ _ (nodup_keys_toList m), lookup_toList]

/-! ### Pointwise relations -/

/-- The two maps have the same keys, with related values. -/
structure Rel (R : α → β → Prop) (m : Map κ α) (m' : Map κ β) : Prop where
  keys : ∀ k : κ, k ∈ m ↔ k ∈ m'
  vals : ∀ (k : κ) (v : α) (v' : β), m[k]? = some v → m'[k]? = some v' → R v v'

omit [Std.LawfulEqOrd κ] in
theorem Rel.exists_right {R : α → β → Prop} {m : Map κ α} {m' : Map κ β}
    (h : Rel R m m') {k : κ} {v : α} (hv : m[k]? = some v) :
    ∃ v', m'[k]? = some v' ∧ R v v' := by
  obtain ⟨v', hv'⟩ := mem_iff_exists.mp ((h.keys k).mp (mem_iff_exists.mpr ⟨v, hv⟩))
  exact ⟨v', hv', h.vals k v v' hv hv'⟩

omit [Std.LawfulEqOrd κ] in
theorem Rel.exists_left {R : α → β → Prop} {m : Map κ α} {m' : Map κ β}
    (h : Rel R m m') {k : κ} {v' : β} (hv : m'[k]? = some v') :
    ∃ v, m[k]? = some v ∧ R v v' := by
  obtain ⟨v, hv₀⟩ := mem_iff_exists.mp ((h.keys k).mpr (mem_iff_exists.mpr ⟨v', hv⟩))
  exact ⟨v, hv₀, h.vals k v v' hv₀ hv⟩

theorem Rel.map {R : γ → δ → Prop} {m : Map κ α} {m' : Map κ β}
    {f : α → γ} {g : β → δ} (h : Rel (fun a b => R (f a) (g b)) m m') :
    Rel R (m.map fun _ => f) (m'.map fun _ => g) where
  keys k := by simpa using h.keys k
  vals k v v' hv hv' := by
    simp only [Std.ExtTreeMap.getElem?_map, Option.map_eq_some_iff] at hv hv'
    obtain ⟨a, ha, rfl⟩ := hv
    obtain ⟨b, hb, rfl⟩ := hv'
    exact h.vals k a b ha hb

omit [Std.LawfulEqOrd κ] in
theorem Rel.trans {R : α → β → Prop} {R' : β → γ → Prop} {R'' : α → γ → Prop}
    {m : Map κ α} {m' : Map κ β} {m'' : Map κ γ} (h : Rel R m m') (h' : Rel R' m' m'')
    (htrans : ∀ a b c, R a b → R' b c → R'' a c) : Rel R'' m m'' where
  keys k := (h.keys k).trans (h'.keys k)
  vals k v v'' hv hv'' := by
    obtain ⟨v', hv', hR⟩ := h.exists_right hv
    exact htrans v v' v'' hR (h'.vals k v' v'' hv' hv'')

theorem rel_ofFn [DecidableEq κ] {R : α → β → Prop} {ks : List κ} {f : κ → α} {g : κ → β}
    (h : ∀ k ∈ ks, R (f k) (g k)) : Rel R (ofFn ks f) (ofFn ks g) where
  keys k := by simp [mem_iff_exists, getElem?_ofFn_eq_some]
  vals k v v' hv hv' := by
    obtain ⟨hk, rfl⟩ := getElem?_ofFn_eq_some.mp hv
    obtain ⟨-, rfl⟩ := getElem?_ofFn_eq_some.mp hv'
    exact h k hk

theorem keys_eq_of_mem_iff {m : Map κ α} {m' : Map κ β} (h : ∀ k, k ∈ m ↔ k ∈ m') :
    m.toList.map Prod.fst = m'.toList.map Prod.fst := by
  have hunit : m.map (fun _ _ => ()) = m'.map (fun _ _ => ()) := by
    apply Std.ExtTreeMap.ext_mem_unit
    simpa using h
  have hkeys : (m.map fun _ _ => ()).keys = (m'.map fun _ _ => ()).keys := by rw [hunit]
  simpa using hkeys

omit [Ord κ] [Std.TransOrd κ] [Std.LawfulEqOrd κ] in
private theorem forall₂_of_keys_eq {R : α → β → Prop} :
    ∀ {l : List (κ × α)} {l' : List (κ × β)}, l.map Prod.fst = l'.map Prod.fst →
      (l.map Prod.fst).Nodup →
      (∀ k v v', (k, v) ∈ l → (k, v') ∈ l' → R v v') →
      List.Forall₂ (fun e e' => e.1 = e'.1 ∧ R e.2 e'.2) l l'
  | [], [], _, _, _ => List.Forall₂.nil
  | [], _ :: _, hk, _, _ => by simp at hk
  | _ :: _, [], hk, _, _ => by simp at hk
  | (k, v) :: l, (k', v') :: l', hk, hnd, h => by
      simp only [List.map_cons, List.cons.injEq] at hk
      obtain ⟨rfl, hk⟩ := hk
      simp only [List.map_cons, List.nodup_cons] at hnd
      refine List.Forall₂.cons ⟨rfl, h k v v' (by simp) (by simp)⟩ ?_
      exact forall₂_of_keys_eq hk hnd.2 fun a w w' hw hw' =>
        h a w w' (List.mem_cons_of_mem _ hw) (List.mem_cons_of_mem _ hw')

/-- Related maps have related entries, in the same order. -/
theorem Rel.forall₂ {R : α → β → Prop} {m : Map κ α} {m' : Map κ β} (h : Rel R m m') :
    List.Forall₂ (fun e e' => e.1 = e'.1 ∧ R e.2 e'.2) m.toList m'.toList := by
  refine forall₂_of_keys_eq (keys_eq_of_mem_iff h.keys) (nodup_keys_toList m) ?_
  intro k v v' hv hv'
  rw [Std.ExtTreeMap.mem_toList_iff_getElem?_eq_some] at hv hv'
  exact h.vals k v v' hv hv'

omit [Ord κ] [Std.TransOrd κ] [Std.LawfulEqOrd κ] in
private theorem exists_of_forall₂_mem {R : α → β → Prop} {l : List α} {l' : List β}
    (h : List.Forall₂ R l l') {a : α} (ha : a ∈ l) : ∃ b ∈ l', R a b := by
  induction h with
  | nil => cases ha
  | @cons x y xs ys hR _ ih =>
      rcases List.mem_cons.mp ha with rfl | ha
      · exact ⟨y, List.mem_cons_self, hR⟩
      · obtain ⟨b, hb, hab⟩ := ih ha
        exact ⟨b, List.mem_cons_of_mem _ hb, hab⟩

/-- Maps whose entries are related, in order, are related. -/
theorem rel_of_forall₂ {R : α → β → Prop} {m : Map κ α} {m' : Map κ β}
    (h : List.Forall₂ (fun e e' => e.1 = e'.1 ∧ R e.2 e'.2) m.toList m'.toList) :
    Rel R m m' := by
  have hkeys : m.toList.map Prod.fst = m'.toList.map Prod.fst := by
    rw [← List.forall₂_eq_eq_eq, List.forall₂_map_left_iff, List.forall₂_map_right_iff]
    exact h.imp fun _ _ he => he.1
  refine ⟨fun k => ?_, fun k v v' hv hv' => ?_⟩
  · simpa using congrArg (k ∈ ·) hkeys
  · rw [← Std.ExtTreeMap.mem_toList_iff_getElem?_eq_some] at hv
    obtain ⟨⟨k', w⟩, hmem, rfl, hR⟩ := exists_of_forall₂_mem h hv
    rw [Std.ExtTreeMap.mem_toList_iff_getElem?_eq_some, hv'] at hmem
    exact Option.some.inj hmem ▸ hR

/-- The values of a map, in key order. -/
def vals (m : Map κ α) : List α := m.toList.map Prod.snd

theorem mem_vals {m : Map κ α} {v : α} : v ∈ vals m ↔ ∃ k : κ, m[k]? = some v := by
  simp [vals]

omit [Std.LawfulEqOrd κ] in
theorem vals_map (m : Map κ α) (f : α → β) :
    vals (m.map fun _ => f) = (vals m).map f := by
  simp [vals]

/-- The values of a map made from sorted keys. -/
theorem vals_ofFn [DecidableEq κ] {ks : List κ} (hs : ks.Pairwise fun a b => compare a b = .lt)
    (f : κ → α) : vals (ofFn ks f) = ks.map f := by
  have hkeys : (ofFn ks f).keys = ks := by
    have hnd : ks.Nodup := hs.imp fun {a b} hab he => by simp [he] at hab
    have hperm : (ofFn ks f).keys.Perm ks := by
      refine (List.perm_ext_iff_of_nodup (ofFn ks f).nodup_keys hnd).mpr fun k => ?_
      simp [mem_iff_exists, getElem?_ofFn_eq_some]
    refine List.Perm.eq_of_pairwise ?_ (ofFn ks f).ordered_keys hs hperm
    intro a b _ _ hab hba
    rw [Std.OrientedCmp.gt_of_lt hab] at hba
    cases hba
  have hval : (ofFn ks f).toList.map Prod.snd = (ofFn ks f).toList.map fun e => f e.1 := by
    refine List.map_congr_left fun e he => ?_
    have := Std.ExtTreeMap.mem_toList_iff_getElem?_eq_some.mp he
    exact (getElem?_ofFn_eq_some.mp this).2.symm
  have hcomp : (ofFn ks f).toList.map (fun e => f e.1) = ((ofFn ks f).toList.map Prod.fst).map f :=
    (List.map_map ..).symm
  rw [vals, hval, hcomp, Std.ExtTreeMap.map_fst_toList_eq_keys, hkeys]

theorem Rel.vals_forall₂ {R : α → β → Prop} {m : Map κ α} {m' : Map κ β} (h : Rel R m m') :
    List.Forall₂ R (OrdMap.vals m) (OrdMap.vals m') := by
  rw [OrdMap.vals, OrdMap.vals, List.forall₂_map_left_iff, List.forall₂_map_right_iff]
  exact h.forall₂.imp fun _ _ he => he.2

theorem Rel.of_eq {m m' : Map κ α} (h : Rel Eq m m') : m = m' := by
  apply Std.ExtTreeMap.ext_getElem?
  intro k
  rcases hk : m[k]? with - | v
  · rcases hk' : m'[k]? with - | v'
    · rfl
    · obtain ⟨v, hv, -⟩ := h.exists_left hk'
      rw [hk] at hv
      cases hv
  · obtain ⟨v', hv', rfl⟩ := h.exists_right hk
    exact hv'.symm

/-- Sums of pointwise related values are related. -/
theorem Rel.sum_le [AddCommMonoid δ] [Preorder δ] [AddLeftMono δ]
    {f : α → δ} {g : β → δ} {m : Map κ α} {m' : Map κ β}
    (h : Rel (fun a b => f a ≤ g b) m m') :
    ((OrdMap.vals m).map f).sum ≤ ((OrdMap.vals m').map g).sum := by
  refine List.Forall₂.sum_le_sum ?_
  rw [List.forall₂_map_left_iff, List.forall₂_map_right_iff]
  exact h.vals_forall₂

end OrdMap

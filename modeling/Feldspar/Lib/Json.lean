/-
Feldspar/Lib/Json.lean

JSON values as Python's `json` module reads and writes them, and what Python
code does with a value whose shape it does not know.

A float may be one of the three special ones, which `json` writes as `Infinity`,
`-Infinity` and `NaN`.  An object is the list of its members.  `sortKeys` is
what a value is after `json.loads(json.dumps(_, sort_keys=True))`.

The readers below fail as the Python expression does: `item` is `j[key]`,
`items` is `j.items()`, `iter` is `for x in j` and `dict` is `dict(j)`.  For each
there is a predicate that says of which values it succeeds, and on what
(`Has`, `Items`, `Each`).
-/
import Feldspar.Lib.Fallible
import Feldspar.Lib.OrdMap
import Mathlib.Algebra.Order.Field.Basic
import Mathlib.Data.List.Sort
import Mathlib.Data.String.Basic

set_option linter.unusedSectionVars false

/-! ### Floats -/

/-- A float over exact numbers, with the three special values. -/
inductive JsonFloat (K : Type)
  | finite (x : K)
  | posInf
  | negInf
  | nan
  deriving DecidableEq, Repr

namespace JsonFloat

variable {K : Type}

section Order

variable [LinearOrder K]

/-- `bound < x`, which is false of a NaN. -/
def Exceeds (bound : K) : JsonFloat K → Prop
  | finite x => bound < x
  | posInf => True
  | negInf => False
  | nan => False

/-- `x <= bound`, which is false of a NaN too. -/
def AtMost (bound : K) : JsonFloat K → Prop
  | finite x => x ≤ bound
  | posInf => False
  | negInf => True
  | nan => False

instance (bound : K) (x : JsonFloat K) : Decidable (x.Exceeds bound) := by
  cases x <;> unfold Exceeds <;> infer_instance

instance (bound : K) (x : JsonFloat K) : Decidable (x.AtMost bound) := by
  cases x <;> unfold AtMost <;> infer_instance

/-- The two comparisons are opposite, but for a NaN. -/
theorem atMost_iff {bound : K} {x : JsonFloat K} :
    x.AtMost bound ↔ ¬ x.Exceeds bound ∧ x ≠ nan := by
  cases x <;> simp [Exceeds, AtMost]

end Order

/-- `x + y`. -/
def add [Add K] : JsonFloat K → JsonFloat K → JsonFloat K
  | nan, _ | _, nan => nan
  | posInf, negInf | negInf, posInf => nan
  | posInf, _ | _, posInf => posInf
  | negInf, _ | _, negInf => negInf
  | finite x, finite y => finite (x + y)

/-- `-x`. -/
def neg [Neg K] : JsonFloat K → JsonFloat K
  | nan => nan
  | posInf => negInf
  | negInf => posInf
  | finite x => finite (-x)

section Arithmetic

variable [Field K] [LinearOrder K]

/-- `k * x`, for a finite `k`. -/
def scale (k : K) : JsonFloat K → JsonFloat K
  | nan => nan
  | posInf => if k = 0 then nan else if k < 0 then negInf else posInf
  | negInf => if k = 0 then nan else if k < 0 then posInf else negInf
  | finite x => finite (k * x)

/-- `abs(x)`. -/
def abs : JsonFloat K → JsonFloat K
  | nan => nan
  | posInf | negInf => posInf
  | finite x => finite (max x (-x))

/-- `x / y`, for a `y` that is not below 0 and not 0. -/
def div : JsonFloat K → JsonFloat K → JsonFloat K
  | nan, _ | _, nan => nan
  | finite x, finite y => finite (x / y)
  | x, finite _ => x
  | finite _, _ => finite 0
  | _, _ => nan

/-- `x < y`, which is false of a NaN on either side. -/
def Lt : JsonFloat K → JsonFloat K → Prop
  | nan, _ | _, nan => False
  | finite x, finite y => x < y
  | finite _, posInf | negInf, finite _ | negInf, posInf => True
  | _, _ => False

instance (x y : JsonFloat K) : Decidable (x.Lt y) := by
  cases x <;> cases y <;> unfold Lt <;> infer_instance

/-- `x <= y`, which is false of a NaN on either side. -/
def Le : JsonFloat K → JsonFloat K → Prop
  | nan, _ | _, nan => False
  | finite x, finite y => x ≤ y
  | negInf, _ | _, posInf => True
  | _, _ => False

instance (x y : JsonFloat K) : Decidable (x.Le y) := by
  cases x <;> cases y <;> unfold Le <;> infer_instance

theorem Le.trans {x y z : JsonFloat K} (h : x.Le y) (h' : y.Le z) : x.Le z := by
  cases x <;> cases y <;> cases z <;> first
    | exact le_trans (α := K) h h'
    | exact h.elim
    | exact h'.elim
    | trivial

theorem le_refl_iff {x : JsonFloat K} : x.Le x ↔ x ≠ nan := by
  cases x <;> simp [Le]

theorem le_of_lt {x y : JsonFloat K} (h : x.Lt y) : x.Le y := by
  cases x <;> cases y <;> first
    | exact (show _ < _ from h).le
    | exact h.elim
    | trivial

theorem le_antisymm {x y : JsonFloat K} (h : x.Le y) (h' : y.Le x) : x = y := by
  cases x <;> cases y <;> first
    | exact congrArg finite ((show _ ≤ _ from h).antisymm h')
    | rfl
    | exact h.elim
    | exact h'.elim

/-- Numbers that are not in the one order are in the other. -/
theorem le_of_not_lt {x y : JsonFloat K} (h : ¬ x.Lt y) (hx : x ≠ nan) (hy : y ≠ nan) :
    y.Le x := by
  cases x <;> cases y <;> first
    | exact not_lt.mp h
    | exact absurd trivial h
    | exact absurd rfl hx
    | exact absurd rfl hy
    | trivial

/-- The later of two arguments of `max` wins only if it is greater. -/
def pick (best x : JsonFloat K) : JsonFloat K := if best.Lt x then x else best

/-- `max(xs, default=d)`. -/
def maxOf (d : JsonFloat K) : List (JsonFloat K) → JsonFloat K
  | [] => d
  | x :: xs => xs.foldl pick x

/-- What `abs` returns: neither below 0 nor minus infinity. -/
def Magnitude : JsonFloat K → Prop
  | finite x => 0 ≤ x
  | negInf => False
  | posInf | nan => True

theorem magnitude_pick {best x : JsonFloat K} (hbest : best.Magnitude) (hx : x.Magnitude) :
    (best.pick x).Magnitude := by
  unfold pick
  split
  · exact hx
  · exact hbest

theorem magnitude_maxOf {d : JsonFloat K} {xs : List (JsonFloat K)} (hd : d.Magnitude)
    (hxs : ∀ x ∈ xs, x.Magnitude) : (maxOf d xs).Magnitude := by
  cases xs with
  | nil => exact hd
  | cons x xs =>
      show (xs.foldl pick x).Magnitude
      have hx := hxs x List.mem_cons_self
      have hrest : ∀ y ∈ xs, y.Magnitude := fun y hy => hxs y (List.mem_cons_of_mem x hy)
      clear hxs
      induction xs generalizing x with
      | nil => exact hx
      | cons y ys ih =>
          exact ih (x.pick y) (magnitude_pick hx (hrest y List.mem_cons_self))
            fun z hz => hrest z (List.mem_cons_of_mem y hz)

/-- A magnitude that is at most a number is a number. -/
theorem Magnitude.finite_of_atMost {x : JsonFloat K} {bound : K} (h : x.Magnitude)
    (hle : x.AtMost bound) : ∃ r, x = finite r ∧ 0 ≤ r ∧ r ≤ bound := by
  cases x with
  | finite r => exact ⟨r, rfl, h, hle⟩
  | posInf => exact hle.elim
  | negInf => exact h.elim
  | nan => exact hle.elim

variable [IsStrictOrderedRing K]

theorem magnitude_abs (x : JsonFloat K) : x.abs.Magnitude := by
  cases x with
  | finite x => exact abs_nonneg x
  | posInf => trivial
  | negInf => trivial
  | nan => trivial

theorem magnitude_div {x y : JsonFloat K} (hx : x.Magnitude) (hy : y.Magnitude) :
    (x.div y).Magnitude := by
  cases x <;> cases y <;> first
    | exact div_nonneg hx hy
    | exact hx
    | exact hy
    | exact le_refl (0 : K)
    | trivial

end Arithmetic

end JsonFloat

/-! ### Values -/

inductive Json (K : Type)
  | null
  | bool (b : Bool)
  | int (n : ℤ)
  | float (x : JsonFloat K)
  | str (s : String)
  | arr (elems : List (Json K))
  | obj (members : List (String × Json K))

namespace Json

variable {K : Type}

mutual

/-- A value that was written with sorted keys and read back. -/
def sortKeys : Json K → Json K
  | arr elems => arr (sortKeysAll elems)
  | obj members => obj ((sortKeysMembers members).insertionSort fun a b => a.1 ≤ b.1)
  | null => null
  | bool b => bool b
  | int n => int n
  | float x => float x
  | str s => str s

def sortKeysAll : List (Json K) → List (Json K)
  | [] => []
  | j :: elems => sortKeys j :: sortKeysAll elems

def sortKeysMembers : List (String × Json K) → List (String × Json K)
  | [] => []
  | (key, j) :: members => (key, sortKeys j) :: sortKeysMembers members

end

theorem sortKeysAll_eq_map (elems : List (Json K)) : sortKeysAll elems = elems.map sortKeys := by
  induction elems with
  | nil => rfl
  | cons j elems ih => exact congrArg _ ih

theorem sortKeysMembers_eq_map (members : List (String × Json K)) :
    sortKeysMembers members = members.map fun m => (m.1, sortKeys m.2) := by
  induction members with
  | nil => rfl
  | cons m members ih => exact congrArg _ ih

@[simp] theorem sortKeys_arr (elems : List (Json K)) :
    sortKeys (arr elems) = arr (elems.map sortKeys) :=
  congrArg arr (sortKeysAll_eq_map elems)

@[simp] theorem sortKeys_obj (members : List (String × Json K)) :
    sortKeys (obj members) = obj ((members.map fun m => (m.1, sortKeys m.2)).insertionSort
      fun a b => a.1 ≤ b.1) :=
  congrArg (fun ms => obj (List.insertionSort _ ms)) (sortKeysMembers_eq_map members)

/-! ### Reading a value of unknown shape -/

/-- What Python raises.  A validation error is a value error. -/
inductive Fault
  | keyError (key : String)
  | typeError
  | attributeError
  | valueError
  deriving DecidableEq, Repr

/-- `j[key]`. -/
def item (key : String) : Json K → Except Fault (Json K)
  | obj members => ((members.lookup key).map .ok).getD (.error (.keyError key))
  | _ => .error .typeError

/-- `j.get(key)`. -/
def get (key : String) : Json K → Except Fault (Option (Json K))
  | obj members => .ok (members.lookup key)
  | _ => .error .attributeError

/-- `j.items()`. -/
def items : Json K → Except Fault (List (String × Json K))
  | obj members => .ok members
  | _ => .error .attributeError

/-- `for x in j`. -/
def iter : Json K → Except Fault (List (Json K))
  | arr elems => .ok elems
  | obj members => .ok (members.map fun m => str m.1)
  | str s => .ok (s.toList.map fun c => str (String.singleton c))
  | _ => .error .typeError

/-- A value that can be a key. -/
def hashable : Json K → Bool
  | arr _ => false
  | obj _ => false
  | _ => true

/-- One element of a sequence that `dict` is built from. -/
def dictItem (j : Json K) : Except Fault (Json K × Json K) := do
  match ← iter j with
  | [key, value] => if hashable key then pure (key, value) else .error .typeError
  | _ => .error .valueError

/-- `dict(j)`; an entry shadows the earlier ones with its key. -/
def dict : Json K → Except Fault (List (Json K × Json K))
  | obj members => .ok (members.map fun m => (str m.1, m.2))
  | j => do (← iter j).mapM dictItem

/-! ### Shapes -/

/-- The object has this member, and it is as said. -/
def Has (key : String) (P : Json K → Prop) (j : Json K) : Prop :=
  ∃ members v, j = obj members ∧ members.lookup key = some v ∧ P v

/-- An object; if it has this member, it is as said. -/
def HasOr (key : String) (P : Json K → Prop) (j : Json K) : Prop :=
  ∃ members, j = obj members ∧ ∀ v, members.lookup key = some v → P v

/-- An object all of whose members are as said. -/
def Items (P : Json K → Prop) (j : Json K) : Prop :=
  ∃ members, j = obj members ∧ ∀ m ∈ members, P m.2

/-- Something to iterate over, all of whose elements are as said. -/
def Each (P : Json K → Prop) (j : Json K) : Prop :=
  ∃ elems, iter j = .ok elems ∧ ∀ x ∈ elems, P x

open Fallible (Succeeds)

variable {α β : Type}

theorem item_obj (key : String) (members : List (String × Json K)) :
    item key (obj members)
      = ((members.lookup key).map .ok).getD (.error (.keyError key)) := rfl

theorem has_iff {key : String} {P : Json K → Prop} {j : Json K} :
    Has key P j ↔ ∃ v, item key j = .ok v ∧ P v := by
  constructor
  · rintro ⟨members, v, rfl, hget, hP⟩
    refine ⟨v, ?_, hP⟩
    rw [item_obj, hget]
    rfl
  · rintro ⟨v, hitem, hP⟩
    rcases j with _ | _ | _ | _ | _ | _ | members
    case obj =>
      refine ⟨members, v, rfl, ?_, hP⟩
      rw [item_obj] at hitem
      rcases hget : members.lookup key with - | v' <;> rw [hget] at hitem <;> cases hitem
      rfl
    all_goals cases hitem

/-- Reading a member and going on with it. -/
theorem succeeds_item {key : String} {f : Json K → Except Fault α} {P : Json K → Prop}
    (h : ∀ v, Succeeds (f v) ↔ P v) (j : Json K) :
    Succeeds (item key j >>= f) ↔ Has key P j := by
  rw [has_iff]
  rcases hitem : item key j with e | v
  · apply iff_of_false (Fallible.not_succeeds_error e)
    rintro ⟨v, heq, -⟩
    cases heq
  · apply (h v).trans
    constructor
    · exact fun hP => ⟨v, rfl, hP⟩
    · rintro ⟨v', heq, hP⟩
      exact Except.ok.inj heq ▸ hP

theorem succeeds_items {f : List (String × Json K) → Except Fault α} {P : Json K → Prop}
    (h : ∀ members, Succeeds (f members) ↔ ∀ m ∈ members, P m.2) (j : Json K) :
    Succeeds (items j >>= f) ↔ Items P j := by
  rcases j with - | - | - | - | - | - | members
  case obj =>
    apply (h members).trans
    constructor
    · exact fun hP => ⟨members, rfl, hP⟩
    · rintro ⟨members', heq, hP⟩
      cases heq
      exact hP
  all_goals
    apply iff_of_false (Fallible.not_succeeds_error _)
    rintro ⟨members, heq, -⟩
    cases heq

theorem succeeds_iter {f : List (Json K) → Except Fault α} {P : Json K → Prop}
    (h : ∀ elems, Succeeds (f elems) ↔ ∀ x ∈ elems, P x) (j : Json K) :
    Succeeds (iter j >>= f) ↔ Each P j := by
  rcases hiter : iter j with e | elems
  · apply iff_of_false (Fallible.not_succeeds_error _)
    rintro ⟨elems, heq, -⟩
    rw [hiter] at heq
    cases heq
  · apply (h elems).trans
    constructor
    · exact fun hP => ⟨elems, hiter, hP⟩
    · rintro ⟨elems', heq, hP⟩
      rw [hiter] at heq
      exact Except.ok.inj heq ▸ hP

/-! ### Lists and maps -/

/-- `[f(x) for x in j]`. -/
def listOf (f : Json K → Except Fault α) (j : Json K) : Except Fault (List α) := do
  (← iter j).mapM f

/-- `{key: f(v) for key, v in j.items()}`. -/
def mapItems (f : Json K → Except Fault α) (j : Json K) : Except Fault (OrdMap.Map String α) := do
  let members ← items j
  let pairs ← members.mapM fun m => do pure (m.1, ← f m.2)
  pure (.ofList pairs compare)

/-- `{key: enc(v) for key, v in m.items()}`. -/
def ofMap (enc : α → Json K) (m : OrdMap.Map String α) : Json K :=
  obj (m.toList.map fun e => (e.1, enc e.2))

section Succeeds

variable {f : Json K → Except Fault α} {P : Json K → Prop}

theorem succeeds_listOf (h : ∀ v, Succeeds (f v) ↔ P v) (j : Json K) :
    Succeeds (listOf f j) ↔ Each P j :=
  succeeds_iter (fun _ => Fallible.succeeds_mapM.trans (forall₂_congr fun x _ => h x)) j

theorem succeeds_mapItems (h : ∀ v, Succeeds (f v) ↔ P v) (j : Json K) :
    Succeeds (mapItems f j) ↔ Items P j := by
  apply succeeds_items
  intro members
  rw [Fallible.succeeds_bind_pure, Fallible.succeeds_mapM]
  exact forall₂_congr fun m _ => Fallible.succeeds_bind_pure.trans (h m.2)

end Succeeds

/-! ### Reading back what was written -/

theorem ofList_toList (m : OrdMap.Map String α) : .ofList m.toList compare = m := by
  apply Std.ExtTreeMap.ext_getElem?
  intro key
  rcases hget : m[key]? with - | a
  · apply Std.ExtTreeMap.getElem?_eq_none
    rw [Std.ExtTreeMap.mem_ofList, List.contains_iff_mem]
    intro hmem
    obtain ⟨e, he, rfl⟩ := List.mem_map.mp hmem
    rw [Std.ExtTreeMap.mem_toList_iff_getElem?_eq_some.mp he] at hget
    cases hget
  · exact Std.ExtTreeMap.getElem?_ofList_of_mem Std.ReflCmp.compare_self
      Std.ExtTreeMap.distinct_keys_toList (Std.ExtTreeMap.mem_toList_iff_getElem?_eq_some.mpr hget)

/-- Sorting the keys of a written map sorts those of its values. -/
theorem sortKeys_ofMap (enc : α → Json K) (m : OrdMap.Map String α) :
    sortKeys (ofMap enc m) = ofMap (fun a => sortKeys (enc a)) m := by
  unfold ofMap
  rw [sortKeys_obj, List.map_map]
  apply congrArg obj
  apply List.Pairwise.insertionSort_eq
  rw [List.pairwise_map]
  exact Std.ExtTreeMap.ordered_keys_toList.imp fun hlt => (compare_lt_iff_lt.mp hlt).le

theorem mapItems_ofMap {f : Json K → Except Fault α} {enc : α → Json K} {m : OrdMap.Map String α}
    (h : ∀ (key : String) (a : α), m[key]? = some a → f (enc a) = .ok a) :
    mapItems f (ofMap enc m) = .ok m := by
  have hpairs : ((m.toList.map fun e => (e.1, enc e.2)).mapM fun e => do
      pure (e.1, ← f e.2) : Except Fault _) = .ok m.toList := by
    rw [Fallible.mapM_eq_ok, List.forall₂_map_left_iff, List.forall₂_same]
    intro e he
    show (f (enc e.2) >>= fun a => pure (e.1, a)) = .ok e
    rw [h e.1 e.2 (Std.ExtTreeMap.mem_toList_iff_getElem?_eq_some.mp he)]
    rfl
  show (((m.toList.map fun e => (e.1, enc e.2)).mapM fun e => do
      pure (e.1, ← f e.2) : Except Fault _) >>= fun pairs =>
        pure (Std.ExtTreeMap.ofList pairs compare)) = _
  rw [hpairs]
  exact congrArg Except.ok (ofList_toList m)

theorem listOf_arr {f : Json K → Except Fault α} {enc : α → Json K} {l : List α}
    (h : ∀ a ∈ l, f (enc a) = .ok a) : listOf f (arr (l.map enc)) = .ok l := by
  show (l.map enc).mapM f = .ok l
  rw [Fallible.mapM_eq_ok, List.forall₂_map_left_iff, List.forall₂_same]
  exact h

theorem lookup_eq_some_iff {members : List (String × α)} (h : (members.map Prod.fst).Nodup)
    {key : String} {a : α} : members.lookup key = some a ↔ (key, a) ∈ members := by
  induction members with
  | nil => simp
  | cons m members ih =>
      obtain ⟨hnotin, hnodup⟩ := List.nodup_cons.mp h
      rw [List.lookup_cons, List.mem_cons]
      by_cases heq : key = m.1
      · subst heq
        have hnot : (m.1, a) ∉ members := fun hmem => hnotin (List.mem_map.mpr ⟨_, hmem, rfl⟩)
        simp [hnot, Prod.ext_iff, eq_comm]
      · have hne : (key, a) ≠ m := fun hm => heq (congrArg Prod.fst hm)
        rw [show (key == m.1) = false from beq_eq_false_iff_ne.mpr heq]
        simp [hne, ih hnodup]

/-- Of an object with each key once, sorting the keys keeps the members. -/
theorem lookup_sortKeys {members : List (String × Json K)} (h : (members.map Prod.fst).Nodup)
    (key : String) :
    ((members.map fun m => (m.1, sortKeys m.2)).insertionSort fun a b => a.1 ≤ b.1).lookup key
      = (members.lookup key).map sortKeys := by
  have hperm := List.perm_insertionSort (fun a b : String × Json K => a.1 ≤ b.1)
    (members.map fun m => (m.1, sortKeys m.2))
  have hnodup : ((members.map fun m => (m.1, sortKeys m.2)).map Prod.fst).Nodup := by
    rw [List.map_map]
    exact h
  apply Option.ext
  intro v
  rw [lookup_eq_some_iff ((hperm.map _).nodup_iff.mpr hnodup), hperm.mem_iff, List.mem_map,
    Option.map_eq_some_iff]
  constructor
  · rintro ⟨m, hm, heq⟩
    obtain ⟨rfl, rfl⟩ := Prod.mk.inj heq
    exact ⟨m.2, (lookup_eq_some_iff h).mpr hm, rfl⟩
  · rintro ⟨v', hget, rfl⟩
    exact ⟨(key, v'), (lookup_eq_some_iff h).mp hget, rfl⟩

theorem item_sortKeys {members : List (String × Json K)} (h : (members.map Prod.fst).Nodup)
    {key : String} {v : Json K} (hget : members.lookup key = some v) :
    item key (sortKeys (obj members)) = .ok (sortKeys v) := by
  rw [sortKeys_obj, item_obj, lookup_sortKeys h, hget]
  rfl

theorem get_sortKeys {members : List (String × Json K)} (h : (members.map Prod.fst).Nodup)
    (key : String) :
    get key (sortKeys (obj members)) = .ok ((members.lookup key).map sortKeys) := by
  rw [sortKeys_obj]
  exact congrArg _ (lookup_sortKeys h key)

end Json

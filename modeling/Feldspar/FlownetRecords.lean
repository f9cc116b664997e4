/-
Feldspar/FlownetRecords.lean

Which edge records of a flownet payload are read.

`Edge.ofPayload` builds an edge, refuses it as an unsupported feature, or
raises.  It builds exactly the records that are `Supported`
(`succeeds_ofPayload`), and raises exactly on those that are not `Read`
(`raises_ofPayload`): values that are no table, or a value that is looked at and
is no scalar.
-/
import Feldspar.FlownetRun

namespace Feldspar

namespace Flownet

variable {K : Type} [Arith K]

/-! ### The records that can be read -/

section Records

variable (py : PyText K)

/-- `float(v)` succeeds. -/
def Json.IsFloat : Json K → Prop
  | .num _ | .bool _ => True
  | .int z => (py.ofInt z).isSome
  | .str s => (py.parseFloat s).isSome
  | _ => False

/-- A number, or a table of two ends. -/
def Json.IsScalar : Json K → Prop
  | .num _ | .bool _ => True
  | .int z => (py.ofInt z).isSome
  | .obj fields => (∃ lo, lookup fields "lo" = some lo ∧ lo.IsFloat py) ∧
      ∃ hi, lookup fields "hi" = some hi ∧ hi.IsFloat py
  | _ => False

def ScalarAt (fields : List (String × Json K)) (key : String) : Prop :=
  ∃ v, lookup fields key = some v ∧ v.IsScalar py

/-- What `_require_keys` asks of the values, for the kinds in coverage. -/
def requiredKeys : String → Option (List String)
  | "pipe" => some ["length", "diameter", "density", "viscosity"]
  | "imposer" => some ["flow_rate"]
  | "orifice" => some ["cd", "bore_diameter", "pipe_diameter", "density"]
  | "hx_segment" => some ["k_factor", "diameter", "density"]
  | _ => none

def OrificeCovered (cd boreDiameter pipeDiameter : K) : Prop :=
  (0 < cd ∧ cd ≤ 1.0) ∧ pipeDiameter ≠ 0 ∧
    orificeBetaMin ≤ boreDiameter / pipeDiameter ∧ boreDiameter / pipeDiameter ≤ orificeBetaMax

/-- The values are in the range of their kind. -/
def RecordCovered (kind : String) (fields : List (String × Json K)) : Prop :=
  match kind with
  | "orifice" => ∃ cd bore pipe, param py (.obj fields) "cd" = .ok cd ∧
      param py (.obj fields) "bore_diameter" = .ok bore ∧
      param py (.obj fields) "pipe_diameter" = .ok pipe ∧ OrificeCovered cd bore pipe
  | "hx_segment" => ∃ k d, param py (.obj fields) "k_factor" = .ok k ∧
      param py (.obj fields) "diameter" = .ok d ∧ ¬ k < 0 ∧ ¬ d ≤ 0
  | _ => True

/-- Every value that is looked at is a scalar. -/
def RecordScalar (kind : String) (fields : List (String × Json K)) : Prop :=
  match kind with
  | "pipe" => ScalarAt py fields "length" ∧ ScalarAt py fields "diameter" ∧
      (∀ v, lookup fields "roughness" = some v → v.IsScalar py) ∧
      ScalarAt py fields "density" ∧ ScalarAt py fields "viscosity"
  | "imposer" => ScalarAt py fields "flow_rate"
  | "orifice" => ScalarAt py fields "cd" ∧ ScalarAt py fields "bore_diameter" ∧
      ScalarAt py fields "pipe_diameter" ∧
      (RecordCovered py "orifice" fields → ScalarAt py fields "density")
  | "hx_segment" => ScalarAt py fields "k_factor" ∧ ScalarAt py fields "diameter" ∧
      (RecordCovered py "hx_segment" fields → ScalarAt py fields "density")
  | _ => True

def HasKeys (fields : List (String × Json K)) (keys : List String) : Prop :=
  ∀ key ∈ keys, (lookup fields key).isSome

/-- The values of an edge can be read, or lack a key. -/
def ValuesRead (kind : String) (keys : List String) : Json K → Prop
  | .obj fields => HasKeys fields keys → RecordScalar py kind fields
  | .arr items => ∃ key ∈ keys, ∀ x ∈ items, x ≠ .str key
  | .str s => ∃ key ∈ keys, ¬ key.toList <:+: s.toList
  | _ => False

def FlowEdge.values (edge : FlowEdge K) : Json K := (lookup edge.params "values").getD (.obj [])

def FlowEdge.HasScalars (edge : FlowEdge K) : Prop :=
  lookup edge.params "source" = some (.str "scalars")

/-- The edge is built or refused, not raised on. -/
def FlowEdge.Reads (edge : FlowEdge K) : Prop :=
  edge.HasScalars → ∀ keys, requiredKeys edge.kind = some keys →
    ValuesRead py edge.kind keys edge.values

/-- The edge is built. -/
def FlowEdge.Supported (edge : FlowEdge K) : Prop :=
  edge.HasScalars ∧ ∃ keys fields, requiredKeys edge.kind = some keys ∧
    edge.values = .obj fields ∧ HasKeys fields keys ∧ RecordCovered py edge.kind fields ∧
    RecordScalar py edge.kind fields

end Records

/-! ### Reading a record -/

section Reading

variable {py : PyText K}

theorem pyFloat_ok {v : Json K} : Fallible.Succeeds (pyFloat py v) ↔ v.IsFloat py := by
  cases v with
  | int z => cases h : py.ofInt z <;> simp [pyFloat, Json.IsFloat, Fallible.Succeeds, h]
  | str s => cases h : py.parseFloat s <;> simp [pyFloat, Json.IsFloat, Fallible.Succeeds, h]
  | _ => simp [pyFloat, Json.IsFloat, Fallible.Succeeds]

/-- `float(v[key])`, where the rest succeeds or not whatever it is. -/
theorem pyFloat_item_ok {α : Type} {fields : List (String × Json K)} {key : String}
    {f : K → Except PayloadError α} {Q : Prop} (hf : ∀ x, Fallible.Succeeds (f x) ↔ Q) :
    Fallible.Succeeds (item (.obj fields) key >>= fun v => pyFloat py v >>= f) ↔
      (∃ v, lookup fields key = some v ∧ v.IsFloat py) ∧ Q := by
  show Fallible.Succeeds (((lookup fields key).map Except.ok).getD
    (.error (PayloadError.keyError key)) >>= _) ↔ _
  rcases lookup fields key with _ | v
  · exact iff_of_false (Fallible.not_succeeds_error _) fun ⟨⟨v, hv, _⟩, _⟩ => nomatch hv
  · show Fallible.Succeeds (pyFloat py v >>= f) ↔ _
    rw [Fallible.succeeds_bind fun x _ => hf x, pyFloat_ok]
    simp

theorem scalarValue_ok {v : Json K} : Fallible.Succeeds (scalarValue py v) ↔ v.IsScalar py := by
  cases v with
  | num x => exact iff_of_true ⟨x, rfl⟩ trivial
  | int z => exact pyFloat_ok (v := .int z)
  | bool b => exact iff_of_true ⟨_, rfl⟩ trivial
  | obj fields =>
      refine pyFloat_item_ok fun lo => ?_
      refine (pyFloat_item_ok (Q := True) fun hi => ?_).trans (Iff.of_eq (and_true _))
      exact iff_true_intro (Fallible.succeeds_pure _)
  | _ => exact iff_of_false (Fallible.not_succeeds_error _) id

/-- An exception, and not a refusal. -/
def Raises {α : Type} (x : Except EdgeError α) : Prop := ∃ e, x = .error (.raised e)

section Raises

variable {α β : Type}

theorem not_raises_ok (a : α) : ¬ Raises (.ok a) := by
  rintro ⟨e, h⟩
  cases h

theorem not_raises_unsupported (edgeId feature : String) :
    ¬ Raises (.error (.unsupported edgeId feature) : Except EdgeError α) := by
  rintro ⟨e, h⟩
  cases h

theorem raises_bind {x : Except EdgeError α} {f : α → Except EdgeError β} :
    Raises (x >>= f) ↔ Raises x ∨ ∃ a, x = .ok a ∧ Raises (f a) := by
  constructor
  · rintro ⟨e, h⟩
    rcases Fallible.bind_eq_error.mp h with h | ⟨a, ha, h⟩
    · exact Or.inl ⟨e, h⟩
    · exact Or.inr ⟨a, ha, e, h⟩
  · rintro (⟨e, h⟩ | ⟨a, ha, e, h⟩)
    · exact ⟨e, Fallible.bind_eq_error.mpr (Or.inl h)⟩
    · exact ⟨e, Fallible.bind_eq_error.mpr (Or.inr ⟨a, ha, h⟩)⟩

/-- Where the rest raises or not whatever the result is. -/
theorem raises_bind_iff {x : Except EdgeError α} {f : α → Except EdgeError β} {P Q : Prop}
    (hx : Raises x ↔ ¬ P) (hok : Fallible.Succeeds x ↔ P)
    (hf : ∀ a, x = .ok a → (Raises (f a) ↔ ¬ Q)) : Raises (x >>= f) ↔ ¬ (P ∧ Q) := by
  rw [raises_bind, hx, not_and_or]
  refine or_congr_right' fun hP => ?_
  obtain ⟨a, ha⟩ := hok.mpr (not_not.mp hP)
  constructor
  · rintro ⟨b, hb, h⟩
    exact (hf b hb).mp h
  · intro h
    exact ⟨a, ha, (hf a ha).mpr h⟩

theorem raises_raising {x : Except PayloadError α} :
    Raises (raising x) ↔ ¬ Fallible.Succeeds x := by
  rcases x with e | a
  · exact iff_of_true ⟨e, rfl⟩ (Fallible.not_succeeds_error e)
  · exact iff_of_false (not_raises_ok a) (not_not.mpr ⟨a, rfl⟩)

theorem succeeds_raising {x : Except PayloadError α} :
    Fallible.Succeeds (raising x) ↔ Fallible.Succeeds x := by
  rcases x with e | a
  · exact iff_of_false (Fallible.not_succeeds_error _) (Fallible.not_succeeds_error e)
  · exact iff_of_true ⟨a, rfl⟩ ⟨a, rfl⟩

end Raises

/-! ### The keys -/

variable {fields : List (String × Json K)} {edgeId : String} {keys : List String}

omit [Arith K] in
theorem raising_contains_obj (key : String) :
    raising (contains (.obj fields : Json K) key) = .ok (lookup fields key).isSome := rfl

omit [Arith K] in
/-- The keys that a table has are not refused. -/
theorem requireKeys_obj : requireKeys edgeId (.obj fields : Json K) keys = .ok () ↔
    HasKeys fields keys := by
  unfold requireKeys HasKeys
  rw [Fallible.forM_eq_ok]
  refine forall₂_congr fun key _ => ?_
  show (if !(lookup fields key).isSome then throw _ else pure ()) = Except.ok () ↔ _
  cases (lookup fields key).isSome
  · exact iff_of_false (fun h => nomatch h) Bool.false_ne_true
  · exact iff_of_true rfl rfl

omit [Arith K] in
/-- A table is not asked for its keys in vain: it has them, or is refused. -/
theorem raises_requireKeys_obj {α : Type} {f : Unit → Except EdgeError α} :
    Raises (requireKeys edgeId (.obj fields : Json K) keys >>= f) ↔
      HasKeys fields keys ∧ Raises (f ()) := by
  have hraises : ¬ Raises (requireKeys edgeId (.obj fields : Json K) keys) := by
    rintro ⟨e, h⟩
    obtain ⟨key, -, hkey⟩ := Fallible.forM_eq_error h
    rw [raising_contains_obj] at hkey
    cases hhas : (lookup fields key).isSome <;> rw [hhas] at hkey <;> cases hkey
  rw [raises_bind, or_iff_right hraises]
  constructor
  · rintro ⟨⟨⟩, hok, h⟩
    exact ⟨requireKeys_obj.mp hok, h⟩
  · rintro ⟨hkeys, h⟩
    exact ⟨(), requireKeys_obj.mpr hkeys, h⟩

theorem succeeds_param {key : String} :
    Fallible.Succeeds (param py (.obj fields) key) ↔ ScalarAt py fields key := by
  unfold param
  rw [succeeds_raising]
  show Fallible.Succeeds (((lookup fields key).map Except.ok).getD
    (.error (PayloadError.keyError key)) >>= scalarValue py) ↔ _
  unfold ScalarAt
  rcases lookup fields key with _ | v
  · exact iff_of_false (Fallible.not_succeeds_error _) fun ⟨v, hv, _⟩ => nomatch hv
  · refine scalarValue_ok.trans ?_
    simp

theorem raises_param {key : String} :
    Raises (param py (.obj fields) key) ↔ ¬ ScalarAt py fields key := by
  rw [← succeeds_param, param, raises_raising, succeeds_raising]

theorem raises_paramOrZero {key : String} :
    Raises (paramOrZero py (.obj fields) key) ↔
      ¬ ∀ v, lookup fields key = some v → v.IsScalar py := by
  show Raises (raising (scalarValue py ((lookup fields key).getD (.num 0)))) ↔ _
  rw [raises_raising, scalarValue_ok]
  rcases lookup fields key with _ | v
  · exact not_congr (iff_of_true trivial fun v hv => nomatch hv)
  · simp

theorem raises_param_bind {α : Type} {key : String} {f : K → Except EdgeError α} {Q : Prop}
    (hf : ∀ x, param py (.obj fields) key = .ok x → (Raises (f x) ↔ ¬ Q)) :
    Raises (param py (.obj fields) key >>= f) ↔ ¬ (ScalarAt py fields key ∧ Q) :=
  raises_bind_iff raises_param succeeds_param hf

theorem raises_paramOrZero_bind {α : Type} {key : String} {f : K → Except EdgeError α} {Q : Prop}
    (hf : ∀ x, Raises (f x) ↔ ¬ Q) :
    Raises (paramOrZero py (.obj fields) key >>= f) ↔
      ¬ ((∀ v, lookup fields key = some v → v.IsScalar py) ∧ Q) := by
  refine raises_bind_iff raises_paramOrZero ?_ fun x _ => hf x
  show Fallible.Succeeds (raising (scalarValue py ((lookup fields key).getD (.num 0)))) ↔ _
  rw [succeeds_raising, scalarValue_ok]
  rcases lookup fields key with _ | v
  · exact iff_of_true trivial fun v hv => nomatch hv
  · simp

theorem raises_param_pure {α : Type} {key : String} {f : K → α} :
    Raises (param py (.obj fields) key >>= fun x => pure (f x)) ↔ ¬ ScalarAt py fields key := by
  have h : Raises (param py (.obj fields) key >>= fun x => pure (f x)) ↔
      ¬ (ScalarAt py fields key ∧ True) :=
    raises_param_bind fun x _ => iff_of_false (not_raises_ok (f x)) (not_not.mpr trivial)
  rwa [and_true] at h

theorem recordCovered_orifice {cd bore pipe : K} (hcd : param py (.obj fields) "cd" = .ok cd)
    (hbore : param py (.obj fields) "bore_diameter" = .ok bore)
    (hpipe : param py (.obj fields) "pipe_diameter" = .ok pipe) :
    RecordCovered py "orifice" fields ↔ OrificeCovered cd bore pipe := by
  constructor
  · rintro ⟨cd', bore', pipe', hcd', hbore', hpipe', h⟩
    obtain rfl := Except.ok.inj (hcd.symm.trans hcd')
    obtain rfl := Except.ok.inj (hbore.symm.trans hbore')
    obtain rfl := Except.ok.inj (hpipe.symm.trans hpipe')
    exact h
  · exact fun h => ⟨cd, bore, pipe, hcd, hbore, hpipe, h⟩

theorem recordCovered_hxSegment {k d : K} (hk : param py (.obj fields) "k_factor" = .ok k)
    (hd : param py (.obj fields) "diameter" = .ok d) :
    RecordCovered py "hx_segment" fields ↔ ¬ k < 0 ∧ ¬ d ≤ 0 := by
  constructor
  · rintro ⟨k', d', hk', hd', h⟩
    obtain rfl := Except.ok.inj (hk.symm.trans hk')
    obtain rfl := Except.ok.inj (hd.symm.trans hd')
    exact h
  · exact fun h => ⟨k, d, hk, hd, h⟩

section Checks

variable {α : Type} {cd bore pipe k d : K} {edgeId f₁ f₂ : String}
variable {g₁ g₂ : PUnit → Except EdgeError α} {x : Except EdgeError α}

/-- The checks of an orifice let its covered values pass. -/
theorem orifice_covered (h : OrificeCovered cd bore pipe) :
    (if ¬(0 < cd ∧ cd ≤ 1.0) then throw (EdgeError.unsupported edgeId f₁) >>= g₁
      else if pipe = 0 ∨ ¬(0.2 ≤ bore / pipe ∧ bore / pipe ≤ 0.75) then
        throw (EdgeError.unsupported edgeId f₂) >>= g₂
      else x) = x := by
  rw [if_neg (not_not.mpr h.1), if_neg]
  rintro (hzero | hbeta)
  · exact h.2.1 hzero
  · exact hbeta h.2.2

/-- And no others. -/
theorem orifice_refused (h : ¬ OrificeCovered cd bore pipe) :
    ∃ feature, (if ¬(0 < cd ∧ cd ≤ 1.0) then throw (EdgeError.unsupported edgeId f₁) >>= g₁
      else if pipe = 0 ∨ ¬(0.2 ≤ bore / pipe ∧ bore / pipe ≤ 0.75) then
        throw (EdgeError.unsupported edgeId f₂) >>= g₂
      else x) = throw (EdgeError.unsupported edgeId feature) := by
  by_cases hrange : 0 < cd ∧ cd ≤ 1.0
  · have hbeta : pipe = 0 ∨ ¬(0.2 ≤ bore / pipe ∧ bore / pipe ≤ 0.75) := by
      by_contra hnot
      rw [not_or, not_not] at hnot
      exact h ⟨hrange, hnot⟩
    rw [if_neg (not_not.mpr hrange), if_pos hbeta]
    exact ⟨f₂, rfl⟩
  · rw [if_pos hrange]
    exact ⟨f₁, rfl⟩

theorem hxSegment_covered (h : ¬ k < 0 ∧ ¬ d ≤ 0) :
    (if k < 0 then throw (EdgeError.unsupported edgeId f₁) >>= g₁
      else if d ≤ 0 then throw (EdgeError.unsupported edgeId f₂) >>= g₂ else x) = x := by
  rw [if_neg h.1, if_neg h.2]

theorem hxSegment_refused (h : ¬ (¬ k < 0 ∧ ¬ d ≤ 0)) :
    ∃ feature, (if k < 0 then throw (EdgeError.unsupported edgeId f₁) >>= g₁
      else if d ≤ 0 then throw (EdgeError.unsupported edgeId f₂) >>= g₂ else x)
        = throw (EdgeError.unsupported edgeId feature) := by
  by_cases hnegative : k < 0
  · rw [if_pos hnegative]
    exact ⟨f₁, rfl⟩
  · have hdiameter : d ≤ 0 := not_not.mp fun hd => h ⟨hnegative, hd⟩
    rw [if_neg hnegative, if_pos hdiameter]
    exact ⟨f₂, rfl⟩

end Checks

/-- The values of an orifice are checked before its density is read. -/
theorem raises_orifice {edge : FlowEdge K} (hkind : edge.kind = "orifice") :
    Raises (Edge.ofValues py edge (.obj fields)) ↔
      HasKeys fields ["cd", "bore_diameter", "pipe_diameter", "density"] ∧
        ¬ RecordScalar py "orifice" fields := by
  simp only [Edge.ofValues, hkind]
  rw [raises_requireKeys_obj]
  refine and_congr_right fun _ => ?_
  refine raises_param_bind fun cd hcd => raises_param_bind fun bore hbore =>
    raises_param_bind fun pipe hpipe => ?_
  rw [recordCovered_orifice hcd hbore hpipe]
  by_cases hcovered : OrificeCovered cd bore pipe
  · rw [orifice_covered hcovered]
    refine raises_param_pure.trans (not_congr ?_)
    exact ⟨fun h _ => h, fun h => h hcovered⟩
  · obtain ⟨feature, hrefused⟩ := orifice_refused hcovered
    rw [hrefused]
    exact iff_of_false (not_raises_unsupported _ _) fun h => h fun hc => absurd hc hcovered

theorem raises_hxSegment {edge : FlowEdge K} (hkind : edge.kind = "hx_segment") :
    Raises (Edge.ofValues py edge (.obj fields)) ↔
      HasKeys fields ["k_factor", "diameter", "density"] ∧
        ¬ RecordScalar py "hx_segment" fields := by
  simp only [Edge.ofValues, hkind]
  rw [raises_requireKeys_obj]
  refine and_congr_right fun _ => ?_
  refine raises_param_bind fun k hk => raises_param_bind fun d hd => ?_
  rw [recordCovered_hxSegment hk hd]
  by_cases hcovered : ¬ k < 0 ∧ ¬ d ≤ 0
  · rw [hxSegment_covered hcovered]
    refine raises_param_pure.trans (not_congr ?_)
    exact ⟨fun h _ => h, fun h => h hcovered⟩
  · obtain ⟨feature, hrefused⟩ := hxSegment_refused hcovered
    rw [hrefused]
    exact iff_of_false (not_raises_unsupported _ _) fun h => h fun hc => absurd hc hcovered

theorem raises_ofValues_obj {edge : FlowEdge K} (hkeys : requiredKeys edge.kind = some keys) :
    Raises (Edge.ofValues py edge (.obj fields)) ↔
      HasKeys fields keys ∧ ¬ RecordScalar py edge.kind fields := by
  unfold requiredKeys at hkeys
  split at hkeys
  · rename_i hkind
    obtain rfl := Option.some.inj hkeys
    simp only [Edge.ofValues, hkind, RecordScalar]
    rw [raises_requireKeys_obj]
    refine and_congr_right fun _ => ?_
    refine raises_param_bind fun _ _ => raises_param_bind fun _ _ => ?_
    exact raises_paramOrZero_bind fun _ => raises_param_bind fun _ _ => raises_param_pure
  · rename_i hkind
    obtain rfl := Option.some.inj hkeys
    simp only [Edge.ofValues, hkind, RecordScalar]
    rw [raises_requireKeys_obj]
    exact and_congr_right fun _ => raises_param_pure
  · rename_i hkind
    obtain rfl := Option.some.inj hkeys
    rw [raises_orifice hkind, hkind]
  · rename_i hkind
    obtain rfl := Option.some.inj hkeys
    rw [raises_hxSegment hkind, hkind]
  · cases hkeys

/-- Values that are no table: every key has to be found, and the first one is
then looked up. -/
theorem raises_requireKeys {values : Json K} (hitem : ∀ key, ∃ e, item values key = .error e)
    {edge : FlowEdge K} (hkeys : requiredKeys edge.kind = some keys) :
    Raises (Edge.ofValues py edge values) ↔
      Raises (requireKeys edge.id values keys) ∨ requireKeys edge.id values keys = .ok () := by
  have hparam : ∀ {α : Type} {key : String} {f : K → Except EdgeError α},
      Raises (param py values key >>= f) := by
    intro α key f
    obtain ⟨e, he⟩ := hitem key
    rw [raises_bind]
    left
    refine ⟨e, ?_⟩
    rw [param, he]
    rfl
  have hbind : ∀ {α : Type} {f : Unit → Except EdgeError α}, Raises (f ()) →
      (Raises (requireKeys edge.id values keys >>= f) ↔
        Raises (requireKeys edge.id values keys) ∨ requireKeys edge.id values keys = .ok ()) := by
    intro α f hf
    rw [raises_bind]
    exact or_congr_right ⟨fun ⟨_, hok, _⟩ => hok, fun hok => ⟨(), hok, hf⟩⟩
  unfold requiredKeys at hkeys
  split at hkeys
  case h_5 => cases hkeys
  all_goals
    rename_i hkind
    obtain rfl := Option.some.inj hkeys
    simp only [Edge.ofValues, hkind]
    exact hbind hparam

theorem raises_ofValues {edge : FlowEdge K} (hkeys : requiredKeys edge.kind = some keys)
    (values : Json K) :
    Raises (Edge.ofValues py edge values) ↔ ¬ ValuesRead py edge.kind keys values := by
  have hne : ∃ key rest, keys = key :: rest := by
    unfold requiredKeys at hkeys
    split at hkeys
    case h_5 => cases hkeys
    all_goals exact ⟨_, _, (Option.some.inj hkeys).symm⟩
  obtain ⟨key, rest, rfl⟩ := hne
  have hnone : ∀ {values : Json K}, (∀ key, contains values key = .error .typeError) →
      Raises (requireKeys edge.id values (key :: rest)) := by
    intro values hcontains
    refine ⟨.typeError, ?_⟩
    rw [requireKeys, List.forM_eq_forM, List.forM_cons, hcontains]
    rfl
  -- where the search for a key does not fail, it refuses or finds all of them
  have hfound : ∀ {values : Json K} {has : String → Bool}, (∀ key, contains values key = .ok (has key)) →
      (Raises (requireKeys edge.id values (key :: rest)) ∨
        requireKeys edge.id values (key :: rest) = .ok () ↔
          ¬ ∃ key' ∈ key :: rest, has key' = false) := by
    intro values has hcontains
    have hstep : ∀ key', (do
        if !(← raising (contains values key')) then
          throw (EdgeError.unsupported edge.id ("missing_param:" ++ key')) : Except EdgeError Unit)
          = if has key' = false then .error (.unsupported edge.id ("missing_param:" ++ key'))
            else .ok () := by
      intro key'
      rw [hcontains]
      cases h : has key' <;> rfl
    have hraises : ¬ Raises (requireKeys edge.id values (key :: rest)) := by
      rintro ⟨e, h⟩
      obtain ⟨key', -, h⟩ := Fallible.forM_eq_error h
      rw [hstep] at h
      split_ifs at h
      cases h
    rw [or_iff_right hraises, requireKeys, Fallible.forM_eq_ok]
    push Not
    refine forall₂_congr fun key' _ => ?_
    rw [hstep]
    split_ifs with h
    · exact iff_of_false (fun h => nomatch h) (not_not.mpr h)
    · exact iff_of_true rfl h
  cases values with
  | obj fields =>
      rw [raises_ofValues_obj hkeys]
      exact Classical.not_imp.symm
  | arr items =>
      rw [raises_requireKeys (fun _ => ⟨_, rfl⟩) hkeys, hfound fun _ => rfl]
      refine not_congr (exists_congr fun key' => and_congr_right fun _ => ?_)
      rw [List.any_eq_false]
      refine forall₂_congr fun x _ => ?_
      cases x <;> simp
  | str s =>
      rw [raises_requireKeys (fun _ => ⟨_, rfl⟩) hkeys, hfound fun _ => rfl]
      exact not_congr (exists_congr fun key' => and_congr_right fun _ => decide_eq_false_iff_not)
  | _ =>
      rw [raises_requireKeys (fun _ => ⟨_, rfl⟩) hkeys]
      exact iff_of_true (Or.inl (hnone fun _ => rfl)) id

/-- An edge of a kind outside the coverage is refused. -/
theorem ofValues_of_unknown {edge : FlowEdge K} (hkeys : requiredKeys edge.kind = none)
    (values : Json K) :
    Edge.ofValues py edge values = .error (.unsupported edge.id ("edge_kind:" ++ edge.kind)) := by
  unfold requiredKeys at hkeys
  split at hkeys
  case h_5 hpipe himposer horifice hsegment =>
    unfold Edge.ofValues
    split
    · exact absurd ‹_› hpipe
    · exact absurd ‹_› himposer
    · exact absurd ‹_› horifice
    · exact absurd ‹_› hsegment
    · rfl
  all_goals cases hkeys

theorem ofPayload_of_hasScalars {edge : FlowEdge K} (h : edge.HasScalars) :
    Edge.ofPayload py edge = Edge.ofValues py edge edge.values := by
  unfold FlowEdge.HasScalars at h
  simp only [Edge.ofPayload, h, Option.getD_some, FlowEdge.values]

/-- Without scalars, an edge is refused. -/
theorem ofPayload_of_not_hasScalars (py : PyText K) {edge : FlowEdge K} (h : ¬ edge.HasScalars) :
    ∃ feature, Edge.ofPayload py edge = .error (.unsupported edge.id feature) := by
  unfold Edge.ofPayload
  split
  · -- a geometry extract lacks a key, or is refused
    rcases hkeys : requireKeys edge.id (.obj edge.params : Json K) ["record", "selector"] with e | _
    · rcases e with ⟨_, feature⟩ | e
      · obtain ⟨key, -, hkey⟩ := Fallible.forM_eq_error hkeys
        rw [raising_contains_obj] at hkey
        cases hhas : (lookup edge.params key).isSome <;> rw [hhas] at hkey <;> cases hkey
        exact ⟨_, rfl⟩
      · have hraises : Raises (requireKeys edge.id (.obj edge.params : Json K)
            ["record", "selector"] >>= fun _ => .ok ()) := by
          rw [hkeys]
          exact ⟨e, rfl⟩
        exact absurd (raises_requireKeys_obj.mp hraises).2 (not_raises_ok ())
    · simp only [bind, Except.bind]
      split
      · split_ifs
        · exact ⟨_, rfl⟩
        · exact ⟨_, rfl⟩
      · exact ⟨_, rfl⟩
  · rename_i hsource
    refine absurd ?_ h
    unfold FlowEdge.HasScalars
    rcases hlookup : lookup edge.params "source" with _ | source
    · rw [hlookup] at hsource
      cases hsource
    · rw [hlookup] at hsource
      exact congrArg some hsource
  · exact ⟨_, rfl⟩

/-- **The edges that raise.** -/
theorem raises_ofPayload {edge : FlowEdge K} :
    Raises (Edge.ofPayload py edge) ↔ ¬ edge.Reads py := by
  unfold FlowEdge.Reads
  by_cases hscalars : edge.HasScalars
  · rw [ofPayload_of_hasScalars hscalars]
    rcases hkeys : requiredKeys edge.kind with _ | keys
    · rw [ofValues_of_unknown hkeys]
      exact iff_of_false (not_raises_unsupported _ _) fun h => h fun _ _ hk => nomatch hk
    · rw [raises_ofValues hkeys]
      refine not_congr ⟨?_, fun h => h hscalars keys rfl⟩
      rintro h _ _ hk
      exact Option.some.inj hk ▸ h
  · obtain ⟨feature, h⟩ := ofPayload_of_not_hasScalars py hscalars
    rw [h]
    exact iff_of_false (not_raises_unsupported _ _) fun h => h fun hs => absurd hs hscalars

omit [Arith K] in
theorem succeeds_requireKeys_obj {α : Type} {f : Unit → Except EdgeError α} :
    Fallible.Succeeds (requireKeys edgeId (.obj fields : Json K) keys >>= f) ↔
      HasKeys fields keys ∧ Fallible.Succeeds (f ()) := by
  refine Fallible.succeeds_bind_iff ?_ fun _ _ => Iff.rfl
  constructor
  · rintro ⟨_, h⟩
    exact requireKeys_obj.mp h
  · exact fun h => ⟨(), requireKeys_obj.mpr h⟩

theorem succeeds_param_bind {α : Type} {key : String} {f : K → Except EdgeError α} {Q : Prop}
    (hf : ∀ x, param py (.obj fields) key = .ok x → (Fallible.Succeeds (f x) ↔ Q)) :
    Fallible.Succeeds (param py (.obj fields) key >>= f) ↔ ScalarAt py fields key ∧ Q :=
  Fallible.succeeds_bind_iff succeeds_param hf

theorem succeeds_param_pure {α : Type} {key : String} {f : K → α} :
    Fallible.Succeeds (param py (.obj fields) key >>= fun x => pure (f x)) ↔
      ScalarAt py fields key :=
  Fallible.succeeds_bind_pure.trans succeeds_param

theorem not_succeeds_unsupported {α : Type} (edgeId feature : String) :
    ¬ Fallible.Succeeds (throw (EdgeError.unsupported edgeId feature) : Except EdgeError α) :=
  Fallible.not_succeeds_error _

theorem succeeds_orifice {edge : FlowEdge K} (hkind : edge.kind = "orifice") :
    Fallible.Succeeds (Edge.ofValues py edge (.obj fields)) ↔
      HasKeys fields ["cd", "bore_diameter", "pipe_diameter", "density"] ∧
        ScalarAt py fields "cd" ∧ ScalarAt py fields "bore_diameter" ∧
        ScalarAt py fields "pipe_diameter" ∧ RecordCovered py "orifice" fields ∧
        ScalarAt py fields "density" := by
  simp only [Edge.ofValues, hkind]
  rw [succeeds_requireKeys_obj]
  refine and_congr_right fun _ => ?_
  refine succeeds_param_bind fun cd hcd => succeeds_param_bind fun bore hbore =>
    succeeds_param_bind fun pipe hpipe => ?_
  rw [recordCovered_orifice hcd hbore hpipe]
  by_cases hcovered : OrificeCovered cd bore pipe
  · rw [orifice_covered hcovered]
    exact succeeds_param_pure.trans (and_iff_right hcovered).symm
  · obtain ⟨feature, hrefused⟩ := orifice_refused hcovered
    rw [hrefused]
    exact iff_of_false (not_succeeds_unsupported _ _) fun h => hcovered h.1

theorem succeeds_hxSegment {edge : FlowEdge K} (hkind : edge.kind = "hx_segment") :
    Fallible.Succeeds (Edge.ofValues py edge (.obj fields)) ↔
      HasKeys fields ["k_factor", "diameter", "density"] ∧
        ScalarAt py fields "k_factor" ∧ ScalarAt py fields "diameter" ∧
        RecordCovered py "hx_segment" fields ∧ ScalarAt py fields "density" := by
  simp only [Edge.ofValues, hkind]
  rw [succeeds_requireKeys_obj]
  refine and_congr_right fun _ => ?_
  refine succeeds_param_bind fun k hk => succeeds_param_bind fun d hd => ?_
  rw [recordCovered_hxSegment hk hd]
  by_cases hcovered : ¬ k < 0 ∧ ¬ d ≤ 0
  · rw [hxSegment_covered hcovered]
    exact succeeds_param_pure.trans (and_iff_right hcovered).symm
  · obtain ⟨feature, hrefused⟩ := hxSegment_refused hcovered
    rw [hrefused]
    exact iff_of_false (not_succeeds_unsupported _ _) fun h => hcovered h.1

theorem succeeds_ofValues_obj {edge : FlowEdge K} (hkeys : requiredKeys edge.kind = some keys) :
    Fallible.Succeeds (Edge.ofValues py edge (.obj fields)) ↔
      HasKeys fields keys ∧ RecordCovered py edge.kind fields ∧
        RecordScalar py edge.kind fields := by
  unfold requiredKeys at hkeys
  -- one case a kind of edge, in the order of the source
  split at hkeys
  · rename_i hkind
    obtain rfl := Option.some.inj hkeys
    have hcovered : RecordCovered py "pipe" fields := trivial
    rw [hkind, and_iff_right hcovered]
    simp only [Edge.ofValues, hkind, RecordScalar]
    rw [succeeds_requireKeys_obj]
    refine and_congr_right fun _ => ?_
    refine succeeds_param_bind fun _ _ => succeeds_param_bind fun _ _ => ?_
    refine Fallible.succeeds_bind_iff ?_ fun x _ => succeeds_param_bind fun _ _ => succeeds_param_pure
    show Fallible.Succeeds (raising (scalarValue py ((lookup fields "roughness").getD (.num 0)))) ↔ _
    rw [succeeds_raising, scalarValue_ok]
    rcases lookup fields "roughness" with _ | v
    · refine iff_of_true trivial ?_
      rintro v ⟨⟩
    · simp
  · rename_i hkind
    obtain rfl := Option.some.inj hkeys
    have hcovered : RecordCovered py "imposer" fields := trivial
    rw [hkind, and_iff_right hcovered]
    simp only [Edge.ofValues, hkind, RecordScalar]
    rw [succeeds_requireKeys_obj]
    exact and_congr_right fun _ => succeeds_param_pure
  · rename_i hkind
    obtain rfl := Option.some.inj hkeys
    rw [succeeds_orifice hkind, hkind]
    refine and_congr_right fun _ => ?_
    constructor
    · rintro ⟨hcd, hbore, hpipe, hcovered, hdensity⟩
      exact ⟨hcovered, hcd, hbore, hpipe, fun _ => hdensity⟩
    · rintro ⟨hcovered, hcd, hbore, hpipe, hdensity⟩
      exact ⟨hcd, hbore, hpipe, hcovered, hdensity hcovered⟩
  · rename_i hkind
    obtain rfl := Option.some.inj hkeys
    rw [succeeds_hxSegment hkind, hkind]
    refine and_congr_right fun _ => ?_
    constructor
    · rintro ⟨hk, hd, hcovered, hdensity⟩
      exact ⟨hcovered, hk, hd, fun _ => hdensity⟩
    · rintro ⟨hcovered, hk, hd, hdensity⟩
      exact ⟨hk, hd, hcovered, hdensity hcovered⟩
  · cases hkeys

/-- Values that are no table are refused, or raise. -/
theorem not_succeeds_ofValues {values : Json K} (hitem : ∀ key, ∃ e, item values key = .error e)
    {edge : FlowEdge K} (hkeys : requiredKeys edge.kind = some keys) :
    ¬ Fallible.Succeeds (Edge.ofValues py edge values) := by
  have hparam : ∀ {α : Type} {key : String} {f : K → Except EdgeError α},
      ¬ Fallible.Succeeds (param py values key >>= f) := by
    intro α key f
    obtain ⟨e, he⟩ := hitem key
    rw [param, he]
    exact Fallible.not_succeeds_error _
  have hbind : ∀ {α : Type} {f : Unit → Except EdgeError α}, ¬ Fallible.Succeeds (f ()) →
      ¬ Fallible.Succeeds (requireKeys edge.id values keys >>= f) := by
    rintro α f hf ⟨a, h⟩
    obtain ⟨⟨⟩, -, h⟩ := Fallible.bind_eq_ok.mp h
    exact hf ⟨a, h⟩
  unfold requiredKeys at hkeys
  split at hkeys
  case h_5 => cases hkeys
  all_goals
    rename_i hkind
    obtain rfl := Option.some.inj hkeys
    simp only [Edge.ofValues, hkind]
    exact hbind hparam

/-- **The edges that are built.** -/
theorem succeeds_ofPayload {edge : FlowEdge K} :
    Fallible.Succeeds (Edge.ofPayload py edge) ↔ edge.Supported py := by
  unfold FlowEdge.Supported
  by_cases hscalars : edge.HasScalars
  · rw [ofPayload_of_hasScalars hscalars, and_iff_right hscalars]
    rcases hkeys : requiredKeys edge.kind with _ | keys
    · rw [ofValues_of_unknown hkeys]
      refine iff_of_false (Fallible.not_succeeds_error _) ?_
      rintro ⟨_, _, hk, _⟩
      cases hk
    · constructor
      · intro h
        cases hvalues : edge.values with
        | obj fields =>
            rw [hvalues] at h
            exact ⟨keys, fields, rfl, rfl, (succeeds_ofValues_obj hkeys).mp h⟩
        | _ =>
            rw [hvalues] at h
            exact absurd h (not_succeeds_ofValues (fun _ => ⟨_, rfl⟩) hkeys)
      · rintro ⟨_, fields, hk, hvalues, h⟩
        rw [hvalues]
        exact (succeeds_ofValues_obj (hkeys.trans hk)).mpr h
  · obtain ⟨feature, h⟩ := ofPayload_of_not_hasScalars py hscalars
    rw [h]
    exact iff_of_false (Fallible.not_succeeds_error _) fun h => absurd h.1 hscalars

/-- What an edge keeps of its record. -/
structure Built (edge : FlowEdge K) (e : Edge K) : Prop where
  id : e.id = edge.id
  a : e.a = edge.a
  b : e.b = edge.b
  cd : e.kind = .orifice → 0 < e.cd
  flow : e.kind.isUnknown = true → e.flow = 0

/-- What a record that is read makes: an edge of it, with its flow if it is an imposer. -/
theorem ofPayload_ok {edge : FlowEdge K} {e : Edge K} (h : Edge.ofPayload py edge = .ok e) :
    Built edge e ∧ (edge.kind ≠ "imposer" ∧ e.kind.isUnknown = true ∨
      edge.kind = "imposer" ∧ e.kind.isUnknown = false ∧
        param py edge.values "flow_rate" = .ok e.flow) := by
  by_cases hscalars : edge.HasScalars
  · rw [ofPayload_of_hasScalars hscalars] at h
    unfold Edge.ofValues at h
    -- one case a kind of edge, in the order of the source
    split at h
    · rename_i hkind
      obtain ⟨_, -, h⟩ := Fallible.bind_eq_ok.mp h
      obtain ⟨_, -, h⟩ := Fallible.bind_eq_ok.mp h
      obtain ⟨_, -, h⟩ := Fallible.bind_eq_ok.mp h
      obtain ⟨_, -, h⟩ := Fallible.bind_eq_ok.mp h
      obtain ⟨_, -, h⟩ := Fallible.bind_eq_ok.mp h
      obtain ⟨_, -, h⟩ := Fallible.bind_eq_ok.mp h
      obtain rfl := Except.ok.inj h
      exact ⟨⟨rfl, rfl, rfl, nofun, fun _ => rfl⟩, Or.inl ⟨by simp [hkind], rfl⟩⟩
    · rename_i hkind
      obtain ⟨_, -, h⟩ := Fallible.bind_eq_ok.mp h
      obtain ⟨flow, hflow, h⟩ := Fallible.bind_eq_ok.mp h
      obtain rfl := Except.ok.inj h
      exact ⟨⟨rfl, rfl, rfl, nofun, nofun⟩, Or.inr ⟨hkind, rfl, hflow⟩⟩
    · rename_i hkind
      obtain ⟨_, -, h⟩ := Fallible.bind_eq_ok.mp h
      obtain ⟨cd, -, h⟩ := Fallible.bind_eq_ok.mp h
      obtain ⟨bore, -, h⟩ := Fallible.bind_eq_ok.mp h
      obtain ⟨pipe, -, h⟩ := Fallible.bind_eq_ok.mp h
      by_cases hcovered : OrificeCovered cd bore pipe
      · rw [orifice_covered hcovered] at h
        obtain ⟨_, -, h⟩ := Fallible.bind_eq_ok.mp h
        obtain rfl := Except.ok.inj h
        exact ⟨⟨rfl, rfl, rfl, fun _ => hcovered.1.1, fun _ => rfl⟩, Or.inl ⟨by simp [hkind], rfl⟩⟩
      · obtain ⟨feature, hrefused⟩ := orifice_refused hcovered
        rw [hrefused] at h
        cases h
    · rename_i hkind
      obtain ⟨_, -, h⟩ := Fallible.bind_eq_ok.mp h
      obtain ⟨k, -, h⟩ := Fallible.bind_eq_ok.mp h
      obtain ⟨d, -, h⟩ := Fallible.bind_eq_ok.mp h
      by_cases hcovered : ¬ k < 0 ∧ ¬ d ≤ 0
      · rw [hxSegment_covered hcovered] at h
        obtain ⟨_, -, h⟩ := Fallible.bind_eq_ok.mp h
        obtain rfl := Except.ok.inj h
        exact ⟨⟨rfl, rfl, rfl, nofun, fun _ => rfl⟩, Or.inl ⟨by simp [hkind], rfl⟩⟩
      · obtain ⟨feature, hrefused⟩ := hxSegment_refused hcovered
        rw [hrefused] at h
        cases h
    · cases h
  · obtain ⟨feature, hrefused⟩ := ofPayload_of_not_hasScalars py hscalars
    rw [hrefused] at h
    cases h

theorem built_ofPayload {edge : FlowEdge K} {e : Edge K} (h : Edge.ofPayload py edge = .ok e) :
    Built edge e :=
  (ofPayload_ok h).1

end Reading

end Flownet

end Feldspar

/-
Feldspar/Lib/Fallible.lean

Loops that may fail, in `Except`: when `forM`, `mapM` and `foldlM` succeed,
and the invariant rule of a fold.  A loop fails with its first error, so two
loops whose bodies agree on the list they run over are equal
(`mapM_congr_left`); so are two searches for a first hit.
-/
import Mathlib.Data.List.Forall2

namespace Fallible

variable {α β ε σ : Type}

theorem bind_eq_ok {x : Except ε α} {f : α → Except ε β} {b : β} :
    (x >>= f) = .ok b ↔ ∃ a, x = .ok a ∧ f a = .ok b := by
  rcases x with e | a <;> simp [bind, Except.bind]

theorem bind_eq_error {x : Except ε α} {f : α → Except ε β} {e : ε} :
    (x >>= f) = .error e ↔ x = .error e ∨ ∃ a, x = .ok a ∧ f a = .error e := by
  rcases x with e' | a <;> simp [bind, Except.bind]

theorem bind_congr_right {x : Except ε α} {f g : α → Except ε β}
    (h : ∀ a, x = .ok a → f a = g a) : (x >>= f) = (x >>= g) := by
  rcases x with e | a
  · rfl
  · exact h a rfl

theorem mapError_eq_ok {ε' : Type} {x : Except ε α} {f : ε → ε'} {a : α} :
    x.mapError f = .ok a ↔ x = .ok a := by
  cases x <;> simp [Except.mapError]

theorem eq_ok_of_toOption {x : Except ε α} {a : α} (h : x.toOption = some a) : x = .ok a := by
  rcases x with e | b
  · cases h
  · exact congrArg _ (Option.some.inj h)

theorem eq_ok_get {x : Except ε α} (h : x.toOption.isSome) : x = .ok (x.toOption.get h) :=
  eq_ok_of_toOption (Option.some_get h).symm

theorem forM_eq_ok {f : α → Except ε Unit} :
    ∀ {l : List α}, l.forM f = .ok () ↔ ∀ a ∈ l, f a = .ok ()
  | [] => by simp [List.forM_eq_forM, pure, Except.pure]
  | a :: l => by
      have ih := forM_eq_ok (f := f) (l := l)
      simp only [List.forM_eq_forM, List.forM_cons, List.mem_cons, forall_eq_or_imp] at ih ⊢
      rcases h : f a with e | ⟨⟩
      · simp [bind, Except.bind]
      · simpa [bind, Except.bind] using ih

theorem forM_eq_error {f : α → Except ε Unit} {e : ε} :
    ∀ {l : List α}, l.forM f = .error e → ∃ a ∈ l, f a = .error e
  | [], h => by cases h
  | a :: l, h => by
      rw [List.forM_eq_forM, List.forM_cons] at h
      rcases bind_eq_error.mp h with h | ⟨⟨⟩, -, h⟩
      · exact ⟨a, List.mem_cons_self, h⟩
      · obtain ⟨b, hb, h⟩ := forM_eq_error (show l.forM f = .error e from h)
        exact ⟨b, List.mem_cons_of_mem a hb, h⟩

theorem mapM_eq_ok {f : α → Except ε β} {l : List α} {bs : List β} :
    l.mapM f = .ok bs ↔ List.Forall₂ (fun a b => f a = .ok b) l bs := by
  induction l generalizing bs with
  | nil =>
      rw [List.mapM_nil, List.forall₂_nil_left_iff]
      exact ⟨fun h => (Except.ok.inj h).symm, fun h => h ▸ rfl⟩
  | cons a l ih =>
      rw [List.mapM_cons, bind_eq_ok, List.forall₂_cons_left_iff]
      constructor
      · rintro ⟨b, hb, h⟩
        obtain ⟨bs', hbs', h⟩ := bind_eq_ok.mp h
        exact ⟨b, bs', hb, ih.mp hbs', (Except.ok.inj h).symm⟩
      · rintro ⟨b, bs', hb, hbs', rfl⟩
        exact ⟨b, hb, bind_eq_ok.mpr ⟨bs', ih.mpr hbs', rfl⟩⟩

/-- The first failure. -/
theorem mapM_eq_error {f : α → Except ε β} {l : List α} {e : ε} :
    l.mapM f = .error e ↔ ∃ before a after, l = before ++ a :: after ∧
      (∀ x ∈ before, ∃ b, f x = .ok b) ∧ f a = .error e := by
  induction l with
  | nil =>
      constructor
      · intro h
        cases h
      · rintro ⟨before, a, after, hnil, -⟩
        cases before <;> cases hnil
  | cons x l ih =>
      rw [List.mapM_cons]
      rcases hx : f x with e' | b
      · constructor
        · rintro h
          refine ⟨[], x, l, rfl, by simp, ?_⟩
          rw [hx]
          exact congrArg _ (Except.error.inj h)
        · rintro ⟨before, a, after, hsplit, hok, ha⟩
          cases before with
          | nil =>
              obtain ⟨rfl, -⟩ := List.cons.inj hsplit
              rw [hx] at ha
              exact congrArg _ (Except.error.inj ha)
          | cons y before =>
              obtain ⟨rfl, -⟩ := List.cons.inj hsplit
              obtain ⟨b, hb⟩ := hok x List.mem_cons_self
              rw [hx] at hb
              cases hb
      · have hrest : (do let bs ← l.mapM f; pure (b :: bs)) = .error e ↔ l.mapM f = .error e := by
          rcases l.mapM f with e' | bs
          · exact ⟨fun h => congrArg _ (Except.error.inj h), fun h => congrArg _ (Except.error.inj h)⟩
          · constructor <;> intro h <;> cases h
        show (do let bs ← l.mapM f; pure (b :: bs)) = .error e ↔ _
        rw [hrest, ih]
        constructor
        · rintro ⟨before, a, after, rfl, hok, ha⟩
          exact ⟨x :: before, a, after, rfl, List.forall_mem_cons.mpr ⟨⟨b, hx⟩, hok⟩, ha⟩
        · rintro ⟨before, a, after, hsplit, hok, ha⟩
          cases before with
          | nil =>
              obtain ⟨rfl, -⟩ := List.cons.inj hsplit
              rw [hx] at ha
              cases ha
          | cons y before =>
              obtain ⟨rfl, rfl⟩ := List.cons.inj hsplit
              exact ⟨before, a, after, rfl, (List.forall_mem_cons.mp hok).2, ha⟩

theorem exists_of_mem_left {R : α → β → Prop} {l : List α} {bs : List β}
    (h : List.Forall₂ R l bs) {a : α} (ha : a ∈ l) : ∃ b ∈ bs, R a b := by
  obtain ⟨n, hn, rfl⟩ := List.getElem_of_mem ha
  have hn' : n < bs.length := h.length_eq ▸ hn
  exact ⟨bs[n], List.getElem_mem hn', h.get hn hn'⟩

theorem exists_of_mem_right {R : α → β → Prop} {l : List α} {bs : List β}
    (h : List.Forall₂ R l bs) {b : β} (hb : b ∈ bs) : ∃ a ∈ l, R a b := by
  obtain ⟨n, hn, rfl⟩ := List.getElem_of_mem hb
  have hn' : n < l.length := h.length_eq ▸ hn
  exact ⟨l[n], List.getElem_mem hn', h.get hn' hn⟩

/-- What a `mapM` that succeeds collects. -/
theorem eq_filterMap_of_mapM {f : α → Except ε β} {l : List α} {bs : List β}
    (h : l.mapM f = .ok bs) : bs = l.filterMap fun a => (f a).toOption := by
  have hbs := mapM_eq_ok.mp h
  clear h
  induction hbs with
  | nil => rfl
  | cons hab _ ih =>
      rw [List.filterMap_cons, hab, ← ih]
      rfl

theorem mapM_congr_left {f g : α → Except ε β} {l : List α} (h : ∀ a ∈ l, f a = g a) :
    l.mapM f = l.mapM g := by
  induction l with
  | nil => rfl
  | cons a l ih =>
      rw [List.mapM_cons, List.mapM_cons, h a List.mem_cons_self,
        ih fun b hb => h b (List.mem_cons_of_mem _ hb)]

theorem findSome?_congr_left {f g : α → Option β} {l : List α} (h : ∀ a ∈ l, f a = g a) :
    l.findSome? f = l.findSome? g := by
  induction l with
  | nil => rfl
  | cons a l ih =>
      rw [List.findSome?_cons, List.findSome?_cons, h a List.mem_cons_self,
        ih fun b hb => h b (List.mem_cons_of_mem _ hb)]

theorem find?_congr_left {p q : α → Bool} {l : List α} (h : ∀ a ∈ l, p a = q a) :
    l.find? p = l.find? q := by
  rw [List.find?_eq_findSome?_guard, List.find?_eq_findSome?_guard]
  apply findSome?_congr_left
  intro a ha
  unfold Option.guard
  rw [h a ha]

/-- A computation that does not fail. -/
def Succeeds (x : Except ε α) : Prop := ∃ a, x = .ok a

theorem succeeds_pure (a : α) : Succeeds (pure a : Except ε α) := ⟨a, rfl⟩

theorem not_succeeds_error (e : ε) : ¬ Succeeds (.error e : Except ε α) := by
  rintro ⟨a, h⟩
  cases h

theorem Succeeds.bind {x : Except ε α} {f : α → Except ε β} (hx : Succeeds x)
    (hf : ∀ a, x = .ok a → Succeeds (f a)) : Succeeds (x >>= f) := by
  obtain ⟨a, ha⟩ := hx
  rw [ha]
  exact hf a ha

/-- Where the rest does not depend on the result. -/
theorem succeeds_bind {x : Except ε α} {f : α → Except ε β} {Q : Prop}
    (h : ∀ a, x = .ok a → (Succeeds (f a) ↔ Q)) : Succeeds (x >>= f) ↔ Succeeds x ∧ Q := by
  rcases x with e | a
  · exact iff_of_false (not_succeeds_error e) fun hx => not_succeeds_error e hx.1
  · exact (h a rfl).trans ⟨fun hq => ⟨⟨a, rfl⟩, hq⟩, fun hx => hx.2⟩

theorem succeeds_bind_iff {x : Except ε α} {f : α → Except ε β} {P Q : Prop} (hx : Succeeds x ↔ P)
    (h : ∀ a, x = .ok a → (Succeeds (f a) ↔ Q)) : Succeeds (x >>= f) ↔ P ∧ Q :=
  (succeeds_bind h).trans (and_congr hx Iff.rfl)

theorem succeeds_mapError {ε' : Type} {x : Except ε α} {f : ε → ε'} :
    Succeeds (x.mapError f) ↔ Succeeds x :=
  exists_congr fun _ => mapError_eq_ok

theorem succeeds_map {x : Except ε α} {f : α → β} : Succeeds (x.map f) ↔ Succeeds x := by
  rcases x with e | a
  · exact iff_of_false (not_succeeds_error e) (not_succeeds_error e)
  · exact iff_of_true ⟨f a, rfl⟩ ⟨a, rfl⟩

theorem succeeds_bind_pure {x : Except ε α} {f : α → β} :
    Succeeds (x >>= fun a => pure (f a)) ↔ Succeeds x := by
  rw [succeeds_bind (Q := True) fun a _ => iff_true_intro (succeeds_pure (f a)), and_true]

theorem succeeds_mapM {f : α → Except ε β} {l : List α} :
    Succeeds (l.mapM f) ↔ ∀ a ∈ l, Succeeds (f a) := by
  induction l with
  | nil => exact iff_of_true ⟨[], rfl⟩ fun a ha => absurd ha List.not_mem_nil
  | cons a l ih =>
      rw [List.mapM_cons, succeeds_bind (Q := Succeeds (l.mapM f)) fun b _ => succeeds_bind_pure,
        ih, List.forall_mem_cons]

/-- The failure of a fold is one of its steps'. -/
theorem foldlM_eq_error {f : σ → α → Except ε σ} {e : ε} : ∀ {l : List α} {s : σ},
    l.foldlM f s = .error e → ∃ s', ∃ a ∈ l, f s' a = .error e
  | [], _, h => by cases h
  | a :: l, s, h => by
      rw [List.foldlM_cons] at h
      rcases ha : f s a with e' | s₁ <;> rw [ha] at h
      · exact ⟨s, a, List.mem_cons_self, ha.trans (congrArg _ (Except.error.inj h))⟩
      · obtain ⟨s', a', hmem, herror⟩ := foldlM_eq_error (show l.foldlM f s₁ = .error e from h)
        exact ⟨s', a', List.mem_cons_of_mem _ hmem, herror⟩

theorem succeeds_foldlM {f : σ → α → Except ε σ} : ∀ {l : List α} {s : σ},
    (∀ a ∈ l, ∀ s, Succeeds (f s a)) → Succeeds (l.foldlM f s)
  | [], s, _ => succeeds_pure s
  | a :: l, s, h => by
      obtain ⟨s₁, hs₁⟩ := h a List.mem_cons_self s
      rw [List.foldlM_cons, hs₁]
      exact succeeds_foldlM (s := s₁) fun a' ha => h a' (List.mem_cons_of_mem _ ha)

theorem foldlM_congr_left {f g : σ → α → Except ε σ} : ∀ {l : List α} {s : σ},
    (∀ a ∈ l, ∀ s, f s a = g s a) → l.foldlM f s = l.foldlM g s
  | [], _, _ => rfl
  | a :: l, s, h => by
      rw [List.foldlM_cons, List.foldlM_cons, h a List.mem_cons_self s]
      congr 1
      funext s'
      exact foldlM_congr_left fun b hb => h b (List.mem_cons_of_mem a hb)

/-- Steps that leave the state alone. -/
theorem foldlM_eq_self {f : σ → α → Except ε σ} : ∀ {l : List α} {s : σ},
    (∀ a ∈ l, ∀ s, f s a = .ok s) → l.foldlM f s = .ok s
  | [], _, _ => rfl
  | a :: l, s, h => by
      rw [List.foldlM_cons, h a List.mem_cons_self s]
      exact foldlM_eq_self fun b hb => h b (List.mem_cons_of_mem a hb)

/-- A fold that succeeds, succeeds at each element. -/
theorem foldlM_mem_ok {f : σ → α → Except ε σ} {a : α} : ∀ {l : List α} {s s' : σ},
    l.foldlM f s = .ok s' → a ∈ l → ∃ s₁ s₂, f s₁ a = .ok s₂
  | b :: l, s, s', h, ha => by
      rw [List.foldlM_cons] at h
      obtain ⟨s₁, hs₁, h⟩ := bind_eq_ok.mp h
      rcases List.mem_cons.mp ha with rfl | ha
      · exact ⟨s, s₁, hs₁⟩
      · exact foldlM_mem_ok h ha

private theorem foldlM_invariant_append {f : σ → α → Except ε σ} {I : List α → σ → Prop}
    (hstep : ∀ l a s s', I l s → f s a = .ok s' → I (l ++ [a]) s') :
    ∀ {l : List α} {done : List α} {s s' : σ}, I done s → l.foldlM f s = .ok s' →
      I (done ++ l) s'
  | [], done, s, s', hs, h => by
      rw [List.append_nil]
      exact Except.ok.inj h ▸ hs
  | a :: l, done, s, s', hs, h => by
      rw [List.foldlM_cons] at h
      obtain ⟨s₁, h₁, h⟩ := bind_eq_ok.mp h
      have := foldlM_invariant_append hstep (hstep done a s s₁ hs h₁) h
      rwa [List.append_assoc] at this

/-- The invariant rule: `I` speaks of the elements gone through. -/
theorem foldlM_invariant {f : σ → α → Except ε σ} {I : List α → σ → Prop} {l : List α} {s s' : σ}
    (hstep : ∀ l a s s', I l s → f s a = .ok s' → I (l ++ [a]) s') (hs : I [] s)
    (h : l.foldlM f s = .ok s') : I l s' :=
  foldlM_invariant_append hstep hs h

/-! ### What a failure can be -/

def FailsWith (P : ε → Prop) (x : Except ε α) : Prop := ∀ e, x = .error e → P e

variable {P : ε → Prop}

theorem failsWith_ok (a : α) : FailsWith P (.ok a : Except ε α) := fun _ h => by cases h

theorem failsWith_error {e : ε} (he : P e) : FailsWith P (.error e : Except ε α) := fun _ h =>
  Except.error.inj h ▸ he

theorem FailsWith.bind {x : Except ε α} {f : α → Except ε β} (hx : FailsWith P x)
    (hf : ∀ a, FailsWith P (f a)) : FailsWith P (x >>= f) := fun e h => by
  rcases bind_eq_error.mp h with h | ⟨a, -, h⟩
  · exact hx e h
  · exact hf a e h

theorem failsWith_forM {f : α → Except ε Unit} {l : List α} (hf : ∀ a, FailsWith P (f a)) :
    FailsWith P (l.forM f) := fun e h => by
  obtain ⟨a, -, h⟩ := forM_eq_error h
  exact hf a e h

theorem failsWith_foldlM {f : σ → α → Except ε σ} {l : List α} {s : σ}
    (hf : ∀ s a, FailsWith P (f s a)) : FailsWith P (l.foldlM f s) := fun e h => by
  obtain ⟨s', a, -, h⟩ := foldlM_eq_error h
  exact hf s' a e h

end Fallible

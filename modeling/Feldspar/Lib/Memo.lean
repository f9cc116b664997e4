/-
Feldspar/Lib/Memo.lean

A keyed store of results.  A lookup compares keys only, so an entry also
remembers, as ghost data, the input it was computed for.  A store is sound for
`R` when `R` relates the key, the writer and the value of every entry; what a
hit is worth to a reader is then a matter of what `R` says of the writer that
shares the reader's key.

A `Journal` is a store in front of a function that may fail, with the inputs the
function was run on.  Where keys are injective, asking it is calling the function
(`ask_fst`), and no input that succeeded is run again (`Faithful.ask`).
-/
import Mathlib.Data.List.Basic
import Mathlib.Logic.Function.Basic

set_option linter.unusedSectionVars false

namespace Memo

variable {κ ω β : Type*}

structure Entry (ω β : Type*) where
  writer : ω
  value : β

abbrev Store (κ ω β : Type*) := κ → Option (Entry ω β)

def empty : Store κ ω β := fun _ => none

def put [DecidableEq κ] (s : Store κ ω β) (k : κ) (w : ω) (v : β) : Store κ ω β :=
  Function.update s k (some ⟨w, v⟩)

/-- Every entry is what `R` says of its key and its writer. -/
def Sound (R : κ → ω → β → Prop) (s : Store κ ω β) : Prop :=
  ∀ k e, s k = some e → R k e.writer e.value

variable {R : κ → ω → β → Prop} {s : Store κ ω β}

theorem sound_empty : Sound R empty := by
  intro k e h
  cases h

theorem Sound.put [DecidableEq κ] (h : Sound R s) {k : κ} {w : ω} {v : β} (hR : R k w v) :
    Sound R (put s k w v) := by
  intro k' e he
  by_cases hk : k' = k
  · subst hk
    rw [Memo.put, Function.update_self] at he
    cases he
    exact hR
  · rw [Memo.put, Function.update_of_ne hk] at he
    exact h k' e he

/-! ### Journals -/

structure Journal (κ ω β : Type*) where
  store : Store κ ω β
  ran : List ω

namespace Journal

variable {ε : Type*} [DecidableEq κ]

def empty : Journal κ ω β := ⟨Memo.empty, []⟩

/-- Look the input up, or run the function and keep its value if it has one. -/
def ask (key : ω → κ) (f : ω → Except ε β) (j : Journal κ ω β) (w : ω) :
    Except ε β × Journal κ ω β :=
  match j.store (key w) with
  | some file => (.ok file.value, j)
  | none =>
      match f w with
      | .ok v => (.ok v, ⟨Memo.put j.store (key w) w v, j.ran ++ [w]⟩)
      | .error e => (.error e, ⟨j.store, j.ran ++ [w]⟩)

/-- The store holds values of the function, every run that succeeded is in it,
and an input is not run after it succeeded. -/
structure Faithful (key : ω → κ) (f : ω → Except ε β) (j : Journal κ ω β) : Prop where
  sound : Sound (fun k w v => k = key w ∧ f w = .ok v) j.store
  kept : ∀ w ∈ j.ran, ∀ v, f w = .ok v → (j.store (key w)).isSome
  once : j.ran.Pairwise fun w w' => ∀ v, f w = .ok v → w ≠ w'

variable {key : ω → κ} {f : ω → Except ε β} {j : Journal κ ω β}

theorem faithful_empty : Faithful key f (empty : Journal κ ω β) where
  sound := sound_empty
  kept w hw := by cases hw
  once := List.Pairwise.nil

/-- Asking gives what the function gives. -/
theorem Faithful.ask_fst (h : Faithful key f j) (hkey : Function.Injective key) (w : ω) :
    (ask key f j w).1 = f w := by
  unfold ask
  rcases hstore : j.store (key w) with - | file
  · rcases hf : f w with e | v <;> rfl
  · obtain ⟨hk, hv⟩ := h.sound _ _ hstore
    obtain rfl := hkey hk
    exact hv.symm

/-- An input that is run was not found, so it had not succeeded. -/
theorem Faithful.once_append (h : Faithful key f j) {w : ω} (hstore : j.store (key w) = none) :
    (j.ran ++ [w]).Pairwise fun w w' => ∀ v, f w = .ok v → w ≠ w' := by
  rw [List.pairwise_append]
  refine ⟨h.once, List.pairwise_singleton _ _, fun w' hw' w'' hw'' v hv => ?_⟩
  obtain rfl := List.mem_singleton.mp hw''
  rintro rfl
  have hsome := h.kept w' hw' v hv
  rw [hstore] at hsome
  cases hsome

/-- Asking keeps a journal faithful. -/
theorem Faithful.ask (h : Faithful key f j) (w : ω) : Faithful key f (ask key f j w).2 := by
  unfold Journal.ask
  rcases hstore : j.store (key w) with - | file
  · rcases hf : f w with e | v
    · -- a failed run leaves the store as it is
      refine ⟨h.sound, fun w' hw' v hv => ?_, h.once_append hstore⟩
      rcases List.mem_append.mp hw' with hw' | hw'
      · exact h.kept w' hw' v hv
      · obtain rfl := List.mem_singleton.mp hw'
        rw [hf] at hv
        cases hv
    · -- a new entry under the key, which held none
      refine ⟨h.sound.put ⟨rfl, hf⟩, fun w' hw' v' hv' => ?_, h.once_append hstore⟩
      show (Function.update j.store (key w) _ (key w')).isSome
      by_cases hk : key w' = key w
      · rw [hk, Function.update_self]
        rfl
      · rw [Function.update_of_ne hk]
        rcases List.mem_append.mp hw' with hw' | hw'
        · exact h.kept w' hw' v' hv'
        · exact absurd (congrArg key (List.mem_singleton.mp hw')) hk
  · exact h

end Journal

end Memo

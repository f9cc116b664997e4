/-
Feldspar/Lib/Pool.lean

A pool of workers behind a list of futures.  A caller submits one task after
the other, waits for the futures in the order of their tasks, and at the first
error cancels the later futures that no worker has started; it leaves the pool
when no task is queued or running any more.

`Step f workers` is one step of the caller or of a worker.  A worker takes the
first task in the queue, and a running task may finish at any moment, so the
runs of `Step` are all interleavings and all orders of completion.

Whatever the order, the pool returns what `mapM f` does (`Step.returns_eq`),
every run ends (`reaches_le`), and none gets stuck (`progress`).
-/
import Feldspar.Lib.Retry
import Mathlib.Algebra.GroupWithZero.Nat
import Mathlib.Data.List.Forall2
import Mathlib.Data.List.Basic

namespace Pool

variable {α β ε : Type*}

inductive Future (α β ε : Type*)
  | pending (task : α)
  | running (task : α)
  | finished (result : Except ε β)
  | cancelled

/-- Where the caller is. -/
inductive Caller (α β ε : Type*)
  | submitting (rest : List α)
  | waiting (idx : ℕ) (results : List β)
  | cancelling (idx : ℕ) (err : ε)
  | leaving (result : Except ε (List β))

structure State (α β ε : Type*) where
  futures : List (Future α β ε)
  caller : Caller α β ε

namespace Future

def isPending : Future α β ε → Bool
  | pending _ => true
  | _ => false

def isRunning : Future α β ε → Bool
  | running _ => true
  | _ => false

/-- No worker has it or will have it. -/
def isSettled : Future α β ε → Bool
  | finished _ => true
  | cancelled => true
  | _ => false

/-- Cancelling has no effect on a task that was started. -/
def cancel : Future α β ε → Future α β ε
  | pending _ => cancelled
  | future => future

end Future

open Future Caller

inductive Step (f : α → Except ε β) (workers : ℕ) :
    State α β ε → Except ε (List β) ⊕ State α β ε → Prop
  | submit {futures task rest} : Step f workers ⟨futures, submitting (task :: rest)⟩
      (.inr ⟨futures ++ [pending task], submitting rest⟩)
  | submitted {futures} : Step f workers ⟨futures, submitting []⟩ (.inr ⟨futures, waiting 0 []⟩)
  | start {before task after caller} (hfirst : ∀ x ∈ before, x.isPending = false)
      (hfree : (before ++ after).countP isRunning < workers) :
      Step f workers ⟨before ++ pending task :: after, caller⟩
        (.inr ⟨before ++ running task :: after, caller⟩)
  | finish {before task after caller} :
      Step f workers ⟨before ++ running task :: after, caller⟩
        (.inr ⟨before ++ finished (f task) :: after, caller⟩)
  | collect {futures idx results b} (h : futures[idx]? = some (finished (.ok b))) :
      Step f workers ⟨futures, waiting idx results⟩
        (.inr ⟨futures, waiting (idx + 1) (results ++ [b])⟩)
  | fail {futures idx results e} (h : futures[idx]? = some (finished (.error e))) :
      Step f workers ⟨futures, waiting idx results⟩ (.inr ⟨futures, cancelling (idx + 1) e⟩)
  | cancel {before future after e} :
      Step f workers ⟨before ++ future :: after, cancelling before.length e⟩
        (.inr ⟨before ++ future.cancel :: after, cancelling (before.length + 1) e⟩)
  | abandoned {futures idx e} (h : futures.length ≤ idx) :
      Step f workers ⟨futures, cancelling idx e⟩ (.inr ⟨futures, leaving (.error e)⟩)
  | collected {futures idx results} (h : futures.length ≤ idx) :
      Step f workers ⟨futures, waiting idx results⟩ (.inr ⟨futures, leaving (.ok results)⟩)
  | leave {futures result} (h : ∀ x ∈ futures, x.isSettled = true) :
      Step f workers ⟨futures, leaving result⟩ (.inl result)

/-- Before the first submission. -/
def State.start (tasks : List α) : State α β ε := ⟨[], submitting tasks⟩

/-! ### The invariant -/

variable {f : α → Except ε β} {workers : ℕ} {tasks : List α}

/-- The future of a task. -/
def Belongs (f : α → Except ε β) (task : α) : Future α β ε → Prop
  | pending t => t = task
  | running t => t = task
  | finished r => r = f task
  | cancelled => True

/-- The tasks that are not submitted yet. -/
def Caller.rest : Caller α β ε → List α
  | submitting rest => rest
  | _ => []

/-- Nothing has failed yet. -/
def Caller.Hopeful : Caller α β ε → Prop
  | submitting _ => True
  | waiting _ _ => True
  | _ => False

/-- What the caller has found out. -/
def Caller.Knows (f : α → Except ε β) (tasks : List α) : Caller α β ε → Prop
  | submitting _ => True
  | waiting idx results => (tasks.take idx).mapM f = .ok results
  | cancelling _ e => tasks.mapM f = .error e
  | leaving result => tasks.mapM f = result

structure Inv (f : α → Except ε β) (tasks : List α) (s : State α β ε) : Prop where
  futures : ∃ submitted, tasks = submitted ++ s.caller.rest ∧
    List.Forall₂ (Belongs f) submitted s.futures
  uncancelled : s.caller.Hopeful → ∀ x ∈ s.futures, x ≠ cancelled
  knows : s.caller.Knows f tasks

theorem inv_start : Inv f tasks (State.start tasks) where
  futures := ⟨[], rfl, List.Forall₂.nil⟩
  uncancelled _ _ hx := absurd hx List.not_mem_nil
  knows := trivial

/-- A future may be replaced by another one of its task. -/
theorem Inv.replace {before after : List (Future α β ε)} {x y : Future α β ε}
    {caller : Caller α β ε} (h : Inv f tasks ⟨before ++ x :: after, caller⟩)
    (hbelongs : ∀ task, Belongs f task x → Belongs f task y)
    (hcancel : caller.Hopeful → y ≠ cancelled) :
    Inv f tasks ⟨before ++ y :: after, caller⟩ := by
  obtain ⟨⟨submitted, htasks, hall⟩, huncancelled, hknows⟩ := h
  refine ⟨⟨submitted, htasks, ?_⟩, ?_, hknows⟩
  · have hbefore := List.forall₂_take_append submitted before (x :: after) hall
    obtain ⟨task, rest, hx, hrest, hdrop⟩ := List.forall₂_cons_right_iff.mp
      (List.forall₂_drop_append submitted before (x :: after) hall)
    rw [← List.take_append_drop before.length submitted, hdrop]
    exact List.rel_append hbefore (List.Forall₂.cons (hbelongs task hx) hrest)
  · intro hhope z hz
    rcases List.mem_append.mp hz with hz | hz
    · exact huncancelled hhope z (List.mem_append_left _ hz)
    · rcases List.mem_cons.mp hz with rfl | hz
      · exact hcancel hhope
      · exact huncancelled hhope z (List.mem_append_right _ (List.mem_cons_of_mem _ hz))

/-- All tasks are submitted once the caller is past that. -/
theorem Inv.forall₂ {s : State α β ε} (h : Inv f tasks s) (hrest : s.caller.rest = []) :
    List.Forall₂ (Belongs f) tasks s.futures := by
  obtain ⟨submitted, htasks, hall⟩ := h.futures
  rwa [htasks, hrest, List.append_nil]

/-- The result that the caller waits for is that of the task. -/
theorem Inv.finished {futures : List (Future α β ε)} {caller : Caller α β ε} {idx : ℕ}
    {r : Except ε β} (h : Inv f tasks ⟨futures, caller⟩) (hrest : caller.rest = [])
    (hidx : futures[idx]? = some (finished r)) :
    ∃ task, tasks[idx]? = some task ∧ r = f task := by
  have hall := h.forall₂ hrest
  obtain ⟨hlt, hget⟩ := List.getElem?_eq_some_iff.mp hidx
  have hlt' : idx < tasks.length := hall.length_eq ▸ hlt
  refine ⟨tasks[idx], List.getElem?_eq_getElem hlt', ?_⟩
  have hbelongs : Belongs f tasks[idx] futures[idx] := hall.get hlt' hlt
  rwa [hget] at hbelongs

theorem mapM_concat (l : List α) (task : α) {results : List β} (h : l.mapM f = .ok results) :
    (l ++ [task]).mapM f = (f task).map fun b => results ++ [b] := by
  rw [List.mapM_append, h]
  rcases hf : f task with e | b <;> simp [hf] <;> rfl

theorem mapM_error_append {l rest : List α} {e : ε} (h : l.mapM f = .error e) :
    (l ++ rest).mapM f = .error e := by
  rw [List.mapM_append, h]
  rfl

/-- What one step keeps. -/
theorem Inv.step {s s' : State α β ε} (h : Inv f tasks s) (hstep : Step f workers s (.inr s')) :
    Inv f tasks s' := by
  cases hstep with
  | @submit futures task rest =>
      obtain ⟨⟨submitted, htasks, hall⟩, huncancelled, -⟩ := h
      refine ⟨⟨submitted ++ [task], by simpa [Caller.rest] using htasks, ?_⟩, ?_, trivial⟩
      · exact List.rel_append hall (List.Forall₂.cons rfl List.Forall₂.nil)
      · intro _ x hx
        rcases List.mem_append.mp hx with hx | hx
        · exact huncancelled trivial x hx
        · rw [List.mem_singleton.mp hx]
          simp
  | submitted => exact ⟨h.futures, fun _ => h.uncancelled trivial, rfl⟩
  | start _ _ => exact h.replace (fun _ ht => ht) fun _ => by simp
  | finish => exact h.replace (fun _ ht => congrArg f ht) fun _ => by simp
  | @collect futures idx results b hidx =>
      refine ⟨h.futures, fun _ => h.uncancelled trivial, ?_⟩
      obtain ⟨task, htask, hb⟩ := h.finished rfl hidx
      show (tasks.take (idx + 1)).mapM f = .ok (results ++ [b])
      rw [List.take_add_one, htask, Option.toList_some, mapM_concat _ _ h.knows, ← hb]
      rfl
  | @fail futures idx results e hidx =>
      refine ⟨h.futures, fun hhope => hhope.elim, ?_⟩
      -- the results are collected in order, so this is the first failure
      obtain ⟨task, htask, he⟩ := h.finished rfl hidx
      have hprefix : (tasks.take (idx + 1)).mapM f = .error e := by
        rw [List.take_add_one, htask, Option.toList_some, mapM_concat _ _ h.knows, ← he]
        rfl
      show tasks.mapM f = .error e
      rw [← List.take_append_drop (idx + 1) tasks]
      exact mapM_error_append hprefix
  | @cancel before future after e =>
      have hcancelled :
          Inv f tasks ⟨before ++ future.cancel :: after, cancelling before.length e⟩ := by
        refine h.replace (fun task ht => ?_) fun hhope => hhope.elim
        cases future <;> first | exact ht | exact trivial
      exact ⟨hcancelled.futures, fun hhope => hhope.elim, h.knows⟩
  | abandoned hidx => exact ⟨h.futures, fun hhope => hhope.elim, h.knows⟩
  | @collected futures idx results hidx =>
      refine ⟨h.futures, fun hhope => hhope.elim, ?_⟩
      have hknows : (tasks.take idx).mapM f = .ok results := h.knows
      have hle : tasks.length ≤ idx := (h.forall₂ rfl).length_eq ▸ hidx
      rwa [List.take_of_length_le hle] at hknows

theorem inv_of_reaches {k : ℕ} {s : State α β ε}
    (h : Retry.Reaches (Step f workers) (State.start tasks) k s) : Inv f tasks s :=
  h.invariant (I := fun _ s => Inv f tasks s) inv_start fun _ _ _ _ hs hstep => hs.step hstep

/-- **The result**: in every order of completion it is that of the tasks one
after the other. -/
theorem returns_eq {result : Except ε (List β)}
    (h : Retry.Returns (Step f workers) (State.start tasks) result) : result = tasks.mapM f := by
  obtain ⟨k, s, hs, hstep⟩ := h.exists_reached
  cases hstep with
  | leave _ => exact (inv_of_reaches hs).knows.symm

/-! ### Progress and termination -/

/-- What is left to do at a future. -/
def Future.work : Future α β ε → ℕ
  | pending _ => 2
  | running _ => 1
  | _ => 0

/-- What is left to do for the caller, with `n` tasks. -/
def Caller.work (n : ℕ) : Caller α β ε → ℕ
  | submitting rest => 3 * rest.length + 2 * n + 3
  | waiting idx _ => (n - idx) + n + 2
  | cancelling idx _ => (n - idx) + 1
  | leaving _ => 0

def State.work (n : ℕ) (s : State α β ε) : ℕ :=
  (s.futures.map Future.work).sum + s.caller.work n

theorem work_lt {s s' : State α β ε} (h : Inv f tasks s) (hstep : Step f workers s (.inr s')) :
    s'.work tasks.length < s.work tasks.length := by
  have hlength : s.caller.rest = [] → s.futures.length = tasks.length :=
    fun hrest => (h.forall₂ hrest).length_eq.symm
  cases hstep with
  | submit => simp [State.work, Caller.work, Future.work]; omega
  | submitted => simp [State.work, Caller.work]; omega
  | start _ _ => simp [State.work, Future.work]
  | finish => simp [State.work, Future.work]
  | @collect futures _ _ _ hidx =>
      have hlt := (List.getElem?_eq_some_iff.mp hidx).1
      have hn : futures.length = tasks.length := hlength rfl
      simp only [State.work, Caller.work]
      omega
  | fail hidx =>
      simp only [State.work, Caller.work]
      omega
  | @cancel before future after e =>
      have hle : future.cancel.work ≤ future.work := by
        cases future <;> simp [Future.cancel, Future.work]
      have hn : (before ++ future :: after).length = tasks.length := hlength rfl
      rw [List.length_append, List.length_cons] at hn
      simp only [State.work, Caller.work, List.map_append, List.map_cons, List.sum_append,
        List.sum_cons]
      omega
  | abandoned hidx => simp only [State.work, Caller.work]; omega
  | collected hidx => simp only [State.work, Caller.work]; omega

/-- The first task in the queue. -/
theorem exists_first_pending {futures : List (Future α β ε)}
    (h : ∃ x ∈ futures, x.isPending = true) :
    ∃ before task after, futures = before ++ pending task :: after ∧
      ∀ x ∈ before, x.isPending = false := by
  induction futures with
  | nil =>
      obtain ⟨x, hx, -⟩ := h
      cases hx
  | cons future futures ih =>
      cases future with
      | pending task => exact ⟨[], task, futures, rfl, by simp⟩
      | running _ | finished _ | cancelled =>
          obtain ⟨x, hx, hpending⟩ := h
          rcases List.mem_cons.mp hx with rfl | hx
          · cases hpending
          · obtain ⟨before, task, after, rfl, hbefore⟩ := ih ⟨x, hx, hpending⟩
            refine ⟨_ :: before, task, after, rfl, ?_⟩
            exact List.forall_mem_cons.mpr ⟨rfl, hbefore⟩

/-- A worker has something to do as long as a future is not settled. -/
theorem worker_progress (hworkers : 0 < workers) {futures : List (Future α β ε)}
    {caller : Caller α β ε} (h : ∃ x ∈ futures, x.isSettled = false) :
    ∃ y, Step f workers ⟨futures, caller⟩ y := by
  by_cases hrunning : ∃ x ∈ futures, x.isRunning = true
  · obtain ⟨x, hx, hrun⟩ := hrunning
    obtain ⟨before, after, rfl⟩ := List.append_of_mem hx
    cases x with
    | running task => exact ⟨_, Step.finish⟩
    | pending _ | finished _ | cancelled => cases hrun
  · -- no worker is busy, so one is free for the first task
    have hpending : ∃ x ∈ futures, x.isPending = true := by
      obtain ⟨x, hx, hunsettled⟩ := h
      refine ⟨x, hx, ?_⟩
      cases x with
      | pending _ => rfl
      | running _ => exact absurd ⟨_, hx, rfl⟩ hrunning
      | finished _ | cancelled => cases hunsettled
    obtain ⟨before, task, after, rfl, hbefore⟩ := exists_first_pending hpending
    refine ⟨_, Step.start hbefore ?_⟩
    have hnone : (before ++ after).countP isRunning = 0 := by
      rw [List.countP_eq_zero]
      intro x hx hrun
      refine hrunning ⟨x, ?_, hrun⟩
      rcases List.mem_append.mp hx with hx | hx
      · exact List.mem_append_left _ hx
      · exact List.mem_append_right _ (List.mem_cons_of_mem _ hx)
    omega

/-- Nothing gets stuck. -/
theorem progress (hworkers : 0 < workers) {s : State α β ε} (h : Inv f tasks s) :
    ∃ y, Step f workers s y := by
  obtain ⟨futures, caller⟩ := s
  cases caller with
  | submitting rest =>
      cases rest with
      | nil => exact ⟨_, Step.submitted⟩
      | cons task rest => exact ⟨_, Step.submit⟩
  | waiting idx results =>
      rcases Nat.lt_or_ge idx futures.length with hlt | hge
      · have hmem := List.getElem_mem hlt
        have hget := List.getElem?_eq_getElem hlt
        rcases hfuture : futures[idx] with task | task | r | -
        · exact worker_progress hworkers ⟨_, hmem, by rw [hfuture]; rfl⟩
        · exact worker_progress hworkers ⟨_, hmem, by rw [hfuture]; rfl⟩
        · rw [hfuture] at hget
          cases r with
          | ok b => exact ⟨_, Step.collect hget⟩
          | error e => exact ⟨_, Step.fail hget⟩
        · exact absurd hfuture (h.uncancelled trivial _ hmem)
      · exact ⟨_, Step.collected hge⟩
  | cancelling idx e =>
      rcases Nat.lt_or_ge idx futures.length with hlt | hge
      · obtain ⟨before, future, after, rfl, rfl⟩ : ∃ before future after,
            futures = before ++ future :: after ∧ idx = before.length := by
          refine ⟨futures.take idx, futures[idx], futures.drop (idx + 1), ?_, ?_⟩
          · rw [← List.drop_eq_getElem_cons hlt, List.take_append_drop]
          · exact (List.length_take_of_le (Nat.le_of_lt hlt)).symm
        exact ⟨_, Step.cancel⟩
      · exact ⟨_, Step.abandoned hge⟩
  | leaving result =>
      by_cases hsettled : ∀ x ∈ futures, x.isSettled = true
      · exact ⟨_, Step.leave hsettled⟩
      · apply worker_progress hworkers
        simpa using hsettled

/-- No run is longer than the work at the start. -/
theorem reaches_le {k : ℕ} {s : State α β ε}
    (h : Retry.Reaches (Step f workers) (State.start tasks) k s) : k ≤ 5 * tasks.length + 3 := by
  have hle := h.add_measure_le (I := Inv f tasks) (μ := State.work tasks.length) inv_start
    (fun _ _ ht hstep => ht.step hstep) fun _ _ ht hstep => work_lt ht hstep
  have hstart : State.work tasks.length (State.start tasks : State α β ε)
      = 3 * tasks.length + 2 * tasks.length + 3 := by
    simp [State.work, State.start, Caller.work]
  omega

/-- The pool returns. -/
theorem returns_mapM (hworkers : 0 < workers) :
    Retry.Returns (Step f workers) (State.start tasks) (tasks.mapM f) := by
  obtain ⟨result, hresult⟩ := Retry.exists_returns (I := Inv f tasks) (μ := State.work tasks.length)
    inv_start (fun _ _ ht hstep => ht.step hstep) (fun _ _ ht hstep => work_lt ht hstep)
    (fun _ ht => progress hworkers ht)
  rwa [returns_eq hresult] at hresult

end Pool

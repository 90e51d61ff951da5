import KosKernel.Kernel.Threads
import KosKernel.Machine.SpinLock

/-!
# Kernel/Exit — a process ends by cancelling its threads

`Process::exit` of `kernel/Process.cc` calls `Thread::cancel` for all other threads of the process
while it holds `threadLock`.  For a thread that is `Blocked`, `cancel` goes through the
`UnblockInfo`, whose `cancelBlocking` acquires the lock that the thread has blocked with.  Threads
that wait in `join` or `post` have blocked with `threadLock` itself (`exit_returns_iff`).
-/

namespace Kos

open Runs

/-- The locks that `exit` and `cancel` acquire. -/
inductive ProcessLock (ρ : Type)
  | threadLock
  /-- `Timeout::lock` -/
  | timeoutLock
  /-- `readyLock` of a scheduler -/
  | readyLock
  /-- the lock of a semaphore, a mutex or another object with a blocking queue -/
  | object (r : ρ)
  deriving DecidableEq

/-- The threads of a process, and the locks that the thread in `exit` holds. -/
structure Exiting (κ τ ρ : Type) where
  threadStore : ManagedArray τ
  b : Blocking κ τ
  /-- the lock that threads block with in a queue -/
  bLock : κ → ProcessLock ρ
  held : List (ProcessLock ρ)

namespace Exiting

variable {κ τ ρ : Type} [DecidableEq κ] [DecidableEq τ] [DecidableEq ρ]

/-! ## The code -/

/-- The lock that a stage of `cancel` acquires: `cancelTimeout` of a `TimeoutInfo`, `cancelBlocking`
of a `BlockingInfo`, and `enqueue` of the scheduler. -/
def lockOf (s : Exiting κ τ ρ) (t : τ) : Stage → Option (ProcessLock ρ)
  | .cancelTimeout => (s.b.info t).titer.map fun _ => .timeoutLock
  | .timedOut => none
  | .unlink => (s.b.info t).queue.map s.bLock
  | .wake => some .readyLock

/-- A stage of `cancel`, under its lock. -/
def goOn (t : τ) (s : Exiting κ τ ρ) (stage : Stage) : Except Fault (Exiting κ τ ρ) :=
  scopedLock ((s.lockOf t stage).any fun l => s.held.contains l)
    (.ok { s with b := s.b.advance ⟨t, .cancel, stage⟩ })

/-- `Thread::cancel`. -/
def cancel (s : Exiting κ τ ρ) (t : τ) : Except Fault (Exiting κ τ ρ) :=
  let s' := { s with b := s.b.cancel t }
  if s.b.state t = .blocked then [.cancelTimeout, .timedOut, .unlink, .wake].foldlM (goOn t) s'
    else .ok s'

/-- The loop of `exit` over the fields of `threadStore`, in the thread `ut`. -/
def cancelOthers (ut : τ) : List ℕ → Exiting κ τ ρ → Except Fault (Exiting κ τ ρ)
  | [], s => .ok s
  | i :: is, s =>
    match s.threadStore.lookup i with
    | some t => if t = ut then cancelOthers ut is s else s.cancel t >>= cancelOthers ut is
    | none => cancelOthers ut is s

/-- `Process::exit`, up to `terminate`. -/
def exit (s : Exiting κ τ ρ) (ut : τ) : Except Fault (Exiting κ τ ρ) :=
  scopedLock (s.held.contains .threadLock)
    ((cancelOthers ut (List.range s.threadStore.index) { s with held := .threadLock :: s.held }).map
      fun s' => { s' with held := s.held })

/-! ## One thread -/

variable {s s' : Exiting κ τ ρ} {t u ut : τ}

/-- `Blocked`, with `threadLock`. -/
def OnThreadLock (s : Exiting κ τ ρ) (t : τ) : Prop :=
  s.b.state t = .blocked ∧ (s.b.info t).queue.map s.bLock = some .threadLock

/-- With `threadLock` held, a stage spins if it wants `threadLock`. -/
theorem goOn_eq (hheld : s.held = [.threadLock]) (stage : Stage) : goOn t s stage =
    if s.lockOf t stage = some .threadLock then .error .spin
    else .ok { s with b := s.b.advance ⟨t, .cancel, stage⟩ } := by
  rw [goOn, hheld]
  cases s.lockOf t stage with
  | none => rfl
  | some l =>
    by_cases hl : l = .threadLock
    · simp [hl]
    · simp [hl]

/-- **The stages of `cancel`** return unless the thread has blocked with `threadLock`. -/
theorem stages_eq (hheld : s.held = [.threadLock]) :
    [Stage.cancelTimeout, .timedOut, .unlink, .wake].foldlM (goOn t) s =
      if (s.b.info t).queue.map s.bLock = some .threadLock then .error .spin
      else .ok { s with
        b := (((s.b.advance ⟨t, .cancel, .cancelTimeout⟩).advance ⟨t, .cancel, .timedOut⟩).advance
          ⟨t, .cancel, .unlink⟩).advance ⟨t, .cancel, .wake⟩ } := by
  have hqueue :
      (((s.b.advance ⟨t, .cancel, .cancelTimeout⟩).advance ⟨t, .cancel, .timedOut⟩).info t).queue =
      (s.b.info t).queue := by simp [Blocking.advance, Blocking.markTimedOut]
  -- each stage leaves the locks as they are
  have hgo : ∀ (b : Blocking κ τ) (stage : Stage), goOn t { s with b } stage =
      if { s with b }.lockOf t stage = some .threadLock then .error .spin
      else .ok { s with b := b.advance ⟨t, .cancel, stage⟩ } :=
        fun b stage => goOn_eq (s := { s with b }) hheld stage
  have hfirst :
      goOn t s .cancelTimeout = .ok { s with b := s.b.advance ⟨t, .cancel, .cancelTimeout⟩ } := by
    rw [goOn_eq hheld, if_neg (by simp [lockOf])]
  have hsecond : ∀ b : Blocking κ τ, goOn t { s with b } .timedOut =
      .ok { s with b := b.advance ⟨t, .cancel, .timedOut⟩ } := fun b => by
    rw [hgo, if_neg (by simp [lockOf])]
  have hlast : ∀ b : Blocking κ τ, goOn t { s with b } .wake =
      .ok { s with b := b.advance ⟨t, .cancel, .wake⟩ } := fun b => by
    rw [hgo, if_neg (by simp [lockOf])]
  simp only [List.foldlM_cons, List.foldlM_nil, hfirst, hsecond, hgo _ .unlink, lockOf, hqueue,
    bind, Except.bind]
  by_cases hq : (s.b.info t).queue.map s.bLock = some .threadLock
  · simp only [if_pos hq]
  · simp only [if_neg hq, hlast]
    rfl

/-- What `cancel` does to the threads. -/
structure Cancels (s s' : Exiting κ τ ρ) (t : τ) : Prop where
  threadStore : s'.threadStore = s.threadStore
  bLock : s'.bLock = s.bLock
  held : s'.held = s.held
  state : s'.b.state = Function.update s.b.state t .cancelled
  info : ∀ u ≠ t, s'.b.info u = s.b.info u

omit [DecidableEq κ] [DecidableEq ρ] in
/-- A thread that has been cancelled is not in the way any more. -/
theorem Cancels.onThreadLock_iff (h : Cancels s s' t) : s'.OnThreadLock u ↔
      u ≠ t ∧ s.OnThreadLock u := by
  rw [OnThreadLock, OnThreadLock, h.state, h.bLock]
  by_cases hu : u = t
  · simp [hu]
  · rw [Function.update_of_ne hu, h.info u hu, and_iff_right hu]

/-- **`cancel`** returns unless the thread is `Blocked` with `threadLock`. -/
theorem cancel_spec (hheld : s.held = [.threadLock]) (t : τ) :
    s.OnThreadLock t ∧ s.cancel t = .error .spin ∨
      ¬ s.OnThreadLock t ∧ ∃ s', s.cancel t = .ok s' ∧ Cancels s s' t := by
  have hstate : (s.b.cancel t).state = Function.update s.b.state t .cancelled := by
    rw [Blocking.cancel]
    split <;> rfl
  have hinfo : (s.b.cancel t).info = s.b.info := by
    rw [Blocking.cancel]
    split <;> rfl
  rw [cancel]
  by_cases hb : s.b.state t = .blocked
  · rw [if_pos hb, stages_eq (s := { s with b := s.b.cancel t }) hheld]
    dsimp only
    rw [hinfo]
    by_cases hq : (s.b.info t).queue.map s.bLock = some .threadLock
    · exact .inl ⟨⟨hb, hq⟩, if_pos hq⟩
    · refine .inr ⟨fun hon => hq hon.2, _, if_neg hq, rfl, rfl, rfl, ?_, fun u hu => ?_⟩
      · rw [Blocking.advance_state, Blocking.advance_state, Blocking.advance_state,
          Blocking.advance_state, hstate]
      · simp [Blocking.advance, hinfo, hu]
  · rw [if_neg hb]
    exact .inr ⟨fun hon => hb hon.1, _, rfl, rfl, rfl, rfl, hstate, fun u _ => congrFun hinfo u⟩

/-! ## All threads -/

/-- **The loop** returns exactly when no thread that it comes to is in the way. -/
theorem cancelOthers_returns_iff {is : List ℕ} : ∀ {s : Exiting κ τ ρ}, s.held = [.threadLock] →
    ((∃ s', cancelOthers ut is s = .ok s') ↔
      ∀ i ∈ is, ∀ t, s.threadStore.lookup i = some t → t ≠ ut → ¬ s.OnThreadLock t) := by
  induction is with
  | nil => exact fun _ => iff_of_true ⟨_, rfl⟩ (by simp)
  | cons i is ih =>
    intro s hheld
    rw [List.forall_mem_cons, cancelOthers]
    split
    · rename_i t hlook
      split
      · rename_i hut
        rw [ih hheld]
        refine (and_iff_right fun u hu hne => absurd ?_ hne).symm
        exact (Option.some.inj (hu.symm.trans hlook)).trans hut
      · rename_i hut
        rcases cancel_spec hheld t with ⟨hon, hspin⟩ | ⟨hoff, s₁, hok, hc⟩
        · rw [hspin]
          refine iff_of_false (fun ⟨s', h⟩ => by cases h) fun h => h.1 t hlook hut hon
        · rw [hok]
          show (∃ s', cancelOthers ut is s₁ = .ok s') ↔ _
          rw [ih (hc.held.trans hheld), hc.threadStore]
          refine ⟨fun h => ⟨fun u hu _ => ?_, fun j hj u hu hne => ?_⟩, fun h j hj u hu hne => ?_⟩
          · exact Option.some.inj (hlook.symm.trans hu) ▸ hoff
          · intro hon
            by_cases hut' : u = t
            · exact hoff (hut' ▸ hon)
            · exact h j hj u hu hne (hc.onThreadLock_iff.mpr ⟨hut', hon⟩)
          · exact fun hon => h.2 j hj u hu hne (hc.onThreadLock_iff.mp hon).2
    · rename_i hlook
      rw [ih hheld]
      exact (and_iff_right fun u hu => by rw [hlook] at hu; cases hu).symm

/-- **`Process::exit` returns exactly when no other thread of the process is `Blocked` with
`threadLock`**, that is, in `join` or in `post`; else it acquires `threadLock` a second time. -/
theorem exit_returns_iff (s : Exiting κ τ ρ) (ut : τ) (hheld : s.held = []) :
    (∃ s', s.exit ut = .ok s') ↔
      ∀ i t, s.threadStore.lookup i = some t → t ≠ ut → ¬ s.OnThreadLock t := by
  have hloop : (∃ s', s.exit ut = .ok s') ↔ ∃ s', cancelOthers ut (List.range s.threadStore.index)
      { s with held := .threadLock :: s.held } = .ok s' := by
    rw [exit, scopedLock_of_false (by simp [hheld])]
    constructor
    · rintro ⟨s', h⟩
      obtain ⟨s₁, h₁, -⟩ := Fault.map_eq_ok h
      exact ⟨s₁, h₁⟩
    · rintro ⟨s', h⟩
      rw [h]
      exact ⟨_, rfl⟩
  rw [hloop, cancelOthers_returns_iff (by rw [hheld])]
  refine ⟨fun h i t hlook => ?_, fun h i _ t hlook => h i t hlook⟩
  exact h i (List.mem_range.mpr (ManagedArray.lt_index hlook)) t hlook

/-! ## Two processes -/

/-- The threads of a process that only join and exit: their conditions are waited for with
`threadLock`. -/
def ofThreads {V : Type} (m : Threads τ V) : Exiting τ τ ρ :=
  ⟨m.threadStore, m.b, fun _ => .threadLock, []⟩

/-- Thread 1 waits for a semaphore, thread 2 for a semaphore or a timeout, and thread 3 sleeps. -/
def waiting : Exiting ℕ ℕ ℕ where
  threadStore := ((((ManagedArray.init 1).put 0).2.put 1).2.put 2).2.put 3 |>.2
  b := (((Blocking.init.suspend 1 (.blocking 0)).suspend 2 (.timeoutBlocking 1 10)).suspend 3
    (.timeout 20))
  bLock := fun k => .object k
  held := []

theorem exit_returns_waiting : ∃ s', waiting.exit 0 = .ok s' := by
  refine (exit_returns_iff waiting 0 rfl).mpr fun i t _ _ hon => ?_
  have hlock : ((waiting.b.info t).queue.map waiting.bLock) = some .threadLock := hon.2
  cases hq : (waiting.b.info t).queue with
  | none => rw [hq] at hlock; cases hlock
  | some k => rw [hq] at hlock; cases hlock

/-- **`exit` spins**: thread 1 has called `exitThread` and waits to be joined, and thread 0 ends the
process. -/
theorem exit_spins : ∃ m : Threads (Fin 2) ℕ, run Threads.step (Threads.init 0)
      [.createThread 0 1, .exitThread 1 7] = some m ∧ m.pc 1 = .posting ∧
    (ofThreads m : Exiting (Fin 2) (Fin 2) ℕ).exit 0 = .error .spin := by
  obtain ⟨m, hrun, hpc, hspins⟩ : ∃ m : Threads (Fin 2) ℕ, run Threads.step (Threads.init 0)
      [.createThread 0 1, .exitThread 1 7] = some m ∧ m.pc 1 = .posting ∧
      Fault.spins ((ofThreads m : Exiting (Fin 2) (Fin 2) ℕ).exit 0) = true :=
        exists_run (by decide +kernel)
  exact ⟨m, hrun, hpc, Fault.eq_spin hspins⟩

end Exiting

end Kos

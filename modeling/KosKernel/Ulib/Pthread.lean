import KosKernel.Lib.Count
import KosKernel.Lib.Runs

/-!
# Ulib/Pthread — the mutex of the user library

`Benaphore` of `include/pthread.h` and the `pthread_mutex` calls of `ulib/pthread.cc`.  A mutex is
an atomic counter and a kernel semaphore: a `lock` that brings the counter below zero waits on the
semaphore, an `unlock` that does not bring it to one posts the semaphore.  `trylock` decrements the
counter and takes the decrement back in a second step, so an `unlock` in between takes it for a
waiter and posts a token that nobody waits for.
-/

namespace Kos

open Runs Count

/-- Where a thread is in a call. -/
inductive MutexPc
  | out
  /-- in `P`, before `semP` -/
  | waiting
  /-- in `tryP`, before `++counter` -/
  | undoing
  /-- in `V`, before `semV` -/
  | posting
  deriving DecidableEq

/-- A mutex and the threads that use it.  `holders` are the threads between a successful `lock` or
`trylock` and their `unlock`, once for each such call. -/
structure PthreadMutex (τ : Type) where
  counter : ℤ
  kSem : ℕ
  pc : τ → MutexPc
  holders : List τ

namespace PthreadMutex

inductive Op
  /-- `pthread_mutex_lock` up to the test of `--counter` -/
  | lock
  | semP
  /-- `pthread_mutex_trylock` up to the test of `--counter` -/
  | trylock
  | undo
  /-- `pthread_mutex_unlock` up to the test of `++counter` -/
  | unlock
  | semV
  deriving DecidableEq

variable {τ : Type} [DecidableEq τ]

/-- `pthread_mutex_init`. -/
def init : PthreadMutex τ := ⟨1, 0, fun _ => .out, []⟩

def move (m : PthreadMutex τ) (t : τ) (pc : MutexPc) : PthreadMutex τ :=
  { m with pc := Function.update m.pc t pc }

/-- One atomic step of the thread `t`.  Only a holder unlocks, and `semP` waits for a token. -/
def step (m : PthreadMutex τ) : τ × Op → Option (PthreadMutex τ)
  | (t, .lock) =>
    if m.pc t = .out then
      let c := m.counter - 1
      some (if c ≥ 0 then { m with counter := c, holders := t :: m.holders }
        else { m.move t .waiting with counter := c })
    else none
  | (t, .semP) =>
    if m.pc t = .waiting ∧ 0 < m.kSem then
      some { m.move t .out with kSem := m.kSem - 1, holders := t :: m.holders }
    else none
  | (t, .trylock) =>
    if m.pc t = .out then
      let c := m.counter - 1
      some (if c ≥ 0 then { m with counter := c, holders := t :: m.holders }
        else { m.move t .undoing with counter := c })
    else none
  | (t, .undo) =>
    if m.pc t = .undoing then some { m.move t .out with counter := m.counter + 1 } else none
  | (t, .unlock) =>
    if m.pc t = .out ∧ t ∈ m.holders then
      let c := m.counter + 1
      some (if c ≥ 1 then { m with counter := c, holders := m.holders.erase t }
        else { m.move t .posting with counter := c, holders := m.holders.erase t })
    else none
  | (t, .semV) =>
    if m.pc t = .posting then some { m.move t .out with kSem := m.kSem + 1 } else none

/-- A step makes no other thread a holder, and takes the mutex from none. -/
theorem mem_holders_step {m m' : PthreadMutex τ} {t u : τ} {op : Op} (hs : m.step (t, op) = some m')
    (hu : u ≠ t) : u ∈ m'.holders ↔ u ∈ m.holders := by
  cases op with
  | lock | trylock =>
    obtain ⟨-, rfl⟩ := Option.ite_some_none_eq_some.mp hs
    dsimp only
    split
    · simp [hu]
    · rfl
  | semP =>
    obtain ⟨-, rfl⟩ := Option.ite_some_none_eq_some.mp hs
    simp [hu]
  | undo | semV =>
    obtain ⟨-, hs⟩ := Option.ite_none_right_eq_some.mp hs
    exact Option.some.inj hs ▸ Iff.rfl
  | unlock =>
    obtain ⟨-, rfl⟩ := Option.ite_some_none_eq_some.mp hs
    dsimp only
    split
    · exact List.mem_erase_of_ne hu
    · exact List.mem_erase_of_ne hu

variable [Fintype τ]

/-- The number of threads in a phase. -/
def inPhase (m : PthreadMutex τ) (pc : MutexPc) : ℕ := count (· == pc) m.pc

/-- The condition on an `unlock`: no `trylock` is about to take its decrement back, or some `lock`
does wait for the token. -/
def Seen (m : PthreadMutex τ) : τ × Op → Prop
  | (_, .unlock) => m.inPhase .undoing = 0 ∨ 0 < m.inPhase .waiting
  | _ => True

omit [DecidableEq τ] in
instance (m : PthreadMutex τ) : ∀ a, Decidable (m.Seen a)
  | (_, .unlock) => inferInstanceAs (Decidable (_ ∨ _))
  | (_, .lock) | (_, .semP) | (_, .trylock) | (_, .undo) | (_, .semV) => isTrue trivial

/-- The balance of a mutex with `h` holders, `w` waiters, `u` decrements to be taken back and `v`
posts on their way: the counter is one minus the holders, the waiters and the decrements; a holder,
a token and a post exclude each other; tokens and posts are for waiters. -/
structure Balanced (counter : ℤ) (kSem h w u v : ℕ) : Prop where
  counter : counter = 1 - h - w - u
  single : h + kSem + v ≤ 1
  tokens : kSem + v ≤ w

/-- **The invariant.** -/
def Inv (m : PthreadMutex τ) : Prop :=
  Balanced m.counter m.kSem m.holders.length (m.inPhase .waiting) (m.inPhase .undoing)
    (m.inPhase .posting)

variable {m m' : PthreadMutex τ} {t : τ} {a : τ × Op}

/-- The phases after the thread `t` has moved from `old` to `pc`. -/
theorem balanced_move {old pc : MutexPc} (hold : m.pc t = old) (c : ℤ) (k h : ℕ)
    (hb : ∀ w u v, w + (old == .waiting).toNat = m.inPhase .waiting + (pc == .waiting).toNat →
      u + (old == .undoing).toNat = m.inPhase .undoing + (pc == .undoing).toNat →
      v + (old == .posting).toNat = m.inPhase .posting + (pc == .posting).toNat →
      Balanced c k h w u v) : Balanced c k h ((m.move t pc).inPhase .waiting)
    ((m.move t pc).inPhase .undoing) ((m.move t pc).inPhase .posting) := by
  subst hold
  exact hb _ _ _ count_update count_update count_update

omit [DecidableEq τ] in
theorem inv_init : Inv (init : PthreadMutex τ) := by
  have hnone : ∀ p : MutexPc, p ≠ .out → (init : PthreadMutex τ).inPhase p = 0 := fun p hp =>
    count_const (by simpa using hp.symm)
  rw [Inv, hnone .waiting (by decide), hnone .undoing (by decide), hnone .posting (by decide)]
  exact ⟨rfl, Nat.zero_le 1, le_rfl⟩

omit [DecidableEq τ] in
/-- `--counter` with a result of at least zero: nobody holds the mutex, and no token is on its
way. -/
theorem Inv.acquire (h : Inv m) (hc : m.counter - 1 ≥ 0) :
    Inv { m with counter := m.counter - 1, holders := t :: m.holders } := by
  obtain ⟨hcounter, -, htokens⟩ := h
  have hlen : (t :: m.holders).length = m.holders.length + 1 := List.length_cons
  show Balanced (m.counter - 1) m.kSem (t :: m.holders).length (m.inPhase .waiting)
      (m.inPhase .undoing) (m.inPhase .posting)
  exact ⟨by omega, by omega, htokens⟩

/-- `++counter` of an `unlock`: a token is posted if somebody waits, and only then. -/
theorem Inv.release (h : Inv m) (ht : m.pc t = .out) (hmem : t ∈ m.holders)
    (hg : m.inPhase .undoing = 0 ∨ 0 < m.inPhase .waiting) :
    Inv (if m.counter + 1 ≥ 1 then { m with counter := m.counter + 1, holders := m.holders.erase t }
      else { m.move t .posting with counter := m.counter + 1, holders := m.holders.erase t }) := by
  obtain ⟨hcounter, hsingle, htokens⟩ := h
  have hlen : (m.holders.erase t).length + 1 = m.holders.length := List.length_erase_add_one hmem
  split
  · show Balanced (m.counter + 1) m.kSem (m.holders.erase t).length (m.inPhase .waiting)
      (m.inPhase .undoing) (m.inPhase .posting)
    exact ⟨by omega, by omega, htokens⟩
  · exact balanced_move ht (m.counter + 1) m.kSem (m.holders.erase t).length
      fun w u v (hw : w = m.inPhase .waiting) (hu : u = m.inPhase .undoing)
        (hv : v = m.inPhase .posting + 1) => ⟨by omega, by omega, by omega⟩

/-- **One step keeps the balance.** -/
theorem Inv.step (h : Inv m) (hg : m.Seen a) (hs : m.step a = some m') : Inv m' := by
  obtain ⟨t, op⟩ := a
  obtain ⟨hcounter, hsingle, htokens⟩ := h
  cases op with
  | lock =>
    obtain ⟨ht, rfl⟩ := Option.ite_some_none_eq_some.mp hs
    split
    · exact Inv.acquire ⟨hcounter, hsingle, htokens⟩ ‹_›
    · exact balanced_move ht (m.counter - 1) m.kSem m.holders.length
        fun w u v (hw : w = m.inPhase .waiting + 1) (hu : u = m.inPhase .undoing)
          (hv : v = m.inPhase .posting) => ⟨by omega, by omega, by omega⟩
  | trylock =>
    obtain ⟨ht, rfl⟩ := Option.ite_some_none_eq_some.mp hs
    split
    · exact Inv.acquire ⟨hcounter, hsingle, htokens⟩ ‹_›
    · exact balanced_move ht (m.counter - 1) m.kSem m.holders.length
        fun w u v (hw : w = m.inPhase .waiting) (hu : u = m.inPhase .undoing + 1)
          (hv : v = m.inPhase .posting) => ⟨by omega, by omega, by omega⟩
  | semP =>
    obtain ⟨⟨ht, hk⟩, rfl⟩ := Option.ite_some_none_eq_some.mp hs
    have hlen : (t :: m.holders).length = m.holders.length + 1 := List.length_cons
    exact balanced_move ht m.counter (m.kSem - 1) (t :: m.holders).length
      fun w u v (hw : w + 1 = m.inPhase .waiting) (hu : u = m.inPhase .undoing)
        (hv : v = m.inPhase .posting) => ⟨by omega, by omega, by omega⟩
  | undo =>
    obtain ⟨ht, rfl⟩ := Option.ite_some_none_eq_some.mp hs
    exact balanced_move ht (m.counter + 1) m.kSem m.holders.length
      fun w u v (hw : w = m.inPhase .waiting) (hu : u + 1 = m.inPhase .undoing)
        (hv : v = m.inPhase .posting) => ⟨by omega, by omega, by omega⟩
  | unlock =>
    obtain ⟨⟨ht, hmem⟩, rfl⟩ := Option.ite_some_none_eq_some.mp hs
    exact Inv.release ⟨hcounter, hsingle, htokens⟩ ht hmem hg
  | semV =>
    obtain ⟨ht, rfl⟩ := Option.ite_some_none_eq_some.mp hs
    exact balanced_move ht m.counter (m.kSem + 1) m.holders.length
      fun w u v (hw : w = m.inPhase .waiting) (hu : u = m.inPhase .undoing)
        (hv : v + 1 = m.inPhase .posting) => ⟨by omega, by omega, by omega⟩

/-- **Mutual exclusion**, in every run in which no `unlock` takes the decrement of a `trylock` for a
waiter. -/
theorem pthread_mutex_exclusive {as : List (τ × Op)} (hrun : run step init as = some m)
    (hguard : Guarded step Seen init as) : m.holders.length ≤ 1 := by
  obtain ⟨-, hsingle, -⟩ : Inv m := invariant_of_guarded Inv.step inv_init hguard hrun
  omega

/-- Two threads: one waits for the other, and a `trylock` fails. -/
theorem pthread_mutex_exclusive_twoThreads : ∃ m : PthreadMutex (Fin 2),
    run step init [(0, .lock), (1, .trylock), (1, .undo), (1, .lock), (0, .unlock), (0, .semV),
      (1, .semP)] = some m ∧ m.holders = [1] ∧ m.holders.length ≤ 1 :=
  exists_run_and (by decide) fun _ hrun _ =>
    pthread_mutex_exclusive hrun (guarded_of_decide (by decide))

/-- **Two holders**: the `unlock` of thread 0 falls between the two steps of the `trylock` of thread
1 and posts a token, which then lets thread 1 in while thread 0 holds the mutex. -/
theorem trylock_undo_admits_two : ∃ m : PthreadMutex (Fin 2),
    run step init [(0, .lock), (1, .trylock), (0, .unlock), (1, .undo), (0, .semV), (0, .lock),
      (1, .lock), (1, .semP)] = some m ∧ m.holders = [1, 0] := ⟨_, rfl, rfl⟩

end PthreadMutex

end Kos

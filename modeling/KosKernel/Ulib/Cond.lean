import KosKernel.Ulib.Pthread

/-!
# Ulib/Cond — the condition variable of the user library

`pthread_cond_wait`, `signal` and `broadcast` of `ulib/pthread.cc`, beside the calls of the mutex.
A condition variable is one more `Benaphore`, which starts at zero.  `pthread_cond_wait` is its `P`
and nothing else: it does not touch the mutex, so whoever blocks there blocks with the mutex held
(`cond_wait_releases_iff`).
-/

namespace Kos

open Function Runs

/-- Where a thread is in a call of the condition variable. -/
inductive CondPc
  | out
  /-- in `P` of `pthread_cond_wait`, before `semP` -/
  | semP
  /-- in the queue of the kernel semaphore -/
  | blocked
  /-- at the head of the loop of `pthread_cond_broadcast` -/
  | loop
  /-- in `V`, before `++counter`; the flag says that the caller is `pthread_cond_broadcast` -/
  | inc (broadcast : Bool)
  /-- in `V`, before `semV` -/
  | semV (broadcast : Bool)
  deriving DecidableEq

/-- Where the caller of `V` goes on. -/
def CondPc.after (broadcast : Bool) : CondPc := if broadcast then .loop else .out

/-- A condition variable, its mutex, and the threads that use them. -/
structure PthreadCond (τ : Type) where
  m : PthreadMutex τ
  counter : ℤ
  kSem : ℕ
  /-- the threads that sleep in `semP` -/
  queue : List τ
  pc : τ → CondPc

namespace PthreadCond

inductive Op
  /-- a step of `pthread_mutex_lock`, `trylock` or `unlock` -/
  | mutex (op : PthreadMutex.Op)
  /-- `pthread_cond_wait` up to the test of `--counter` -/
  | wait
  | semP
  /-- `pthread_cond_signal` up to the test of `empty` -/
  | signal
  /-- `pthread_cond_broadcast`: the test of `empty`, for the first time or again -/
  | broadcast
  | inc
  | semV
  deriving DecidableEq

variable {τ : Type} [DecidableEq τ]

/-- `pthread_cond_init` and `pthread_mutex_init`. -/
def init : PthreadCond τ := ⟨.init, 0, 0, [], fun _ => .out⟩

def move (s : PthreadCond τ) (t : τ) (pc : CondPc) : PthreadCond τ :=
  { s with pc := update s.pc t pc }

/-- The thread is in no call. -/
def Out (s : PthreadCond τ) (t : τ) : Prop := s.pc t = .out ∧ s.m.pc t = .out

omit [DecidableEq τ] in
instance (s : PthreadCond τ) (t : τ) : Decidable (s.Out t) := inferInstanceAs (Decidable (_ ∧ _))

variable (s : PthreadCond τ)

/-- `empty`: `V` follows if the counter is below zero. -/
def test (t : τ) (broadcast : Bool) : PthreadCond τ :=
  if s.counter ≥ 0 then s.move t .out else s.move t (.inc broadcast)

/-- `V` of the kernel semaphore: the first thread of the queue returns from `semP`, or there is one
more token. -/
def post : PthreadCond τ :=
  match s.queue with
  | [] => { s with kSem := s.kSem + 1 }
  | u :: q => { s.move u .out with queue := q }

/-- One atomic step of the thread `t`.  `pthread_cond_wait` is called with the mutex held. -/
def step (s : PthreadCond τ) : τ × Op → Option (PthreadCond τ)
  | (t, .mutex op) => if s.pc t = .out then (s.m.step (t, op)).map fun m => { s with m } else none
  | (t, .wait) =>
    if s.Out t ∧ t ∈ s.m.holders then
      let c := s.counter - 1
      some (if c ≥ 0 then { s with counter := c } else { s.move t .semP with counter := c })
    else none
  | (t, .semP) =>
    if s.pc t = .semP then
      some (if 0 < s.kSem then { s.move t .out with kSem := s.kSem - 1 }
        else { s.move t .blocked with queue := s.queue ++ [t] })
    else none
  | (t, .signal) => if s.Out t then some (s.test t false) else none
  | (t, .broadcast) => if s.Out t ∨ s.pc t = .loop then some (s.test t true) else none
  | (t, .inc) =>
    match s.pc t with
    | .inc broadcast =>
      let c := s.counter + 1
      some { s.move t (if c ≥ 1 then .after broadcast else .semV broadcast) with counter := c }
    | _ => none
  | (t, .semV) =>
    match s.pc t with
    | .semV broadcast => some (s.post.move t (.after broadcast))
    | _ => none

/-- The thread is inside `pthread_cond_wait`. -/
def Waits (t : τ) : Prop := s.pc t = .semP ∨ s.pc t = .blocked

/-- The condition: whoever reaches `semP` in `pthread_cond_wait` finds a token there. -/
def Token : τ × Op → Prop
  | (_, .semP) => 0 < s.kSem
  | _ => True

omit [DecidableEq τ] in
instance (s : PthreadCond τ) : ∀ a, Decidable (s.Token a)
  | (_, .semP) => inferInstanceAs (Decidable (_ < _))
  | (_, .mutex _) | (_, .wait) | (_, .signal) | (_, .broadcast) | (_, .inc)
  | (_, .semV) => isTrue trivial

/-! ## What a step does -/

variable {s s' : PthreadCond τ} {t u : τ} {a : τ × Op}

/-- Nobody enters `pthread_cond_wait`, or moves within it. -/
def Calm (s s' : PthreadCond τ) : Prop := ∀ t, s'.Waits t → s'.pc t = s.pc t

omit [DecidableEq τ] in
theorem Calm.refl (s : PthreadCond τ) : Calm s s := fun _ _ => rfl

theorem Calm.move (h : Calm s s') (t : τ) {pc : CondPc} (hpc : pc ≠ .semP) (hpc' : pc ≠ .blocked) :
    Calm s (s'.move t pc) := fun u hu => by
  by_cases hut : u = t
  · subst hut
    simp only [Waits, PthreadCond.move, update_self] at hu
    exact (hu.elim hpc hpc').elim
  · simp only [Waits, PthreadCond.move, update_of_ne hut] at hu ⊢
    exact h u hu

theorem Calm.after (h : Calm s s') (t : τ) (broadcast : Bool) :
    Calm s (s'.move t (.after broadcast)) := by
  cases broadcast
  · exact h.move t (by decide) (by decide)
  · exact h.move t (by decide) (by decide)

theorem test_calm (s : PthreadCond τ) (t : τ) (broadcast : Bool) :
    (s.test t broadcast).m = s.m ∧ Calm s (s.test t broadcast) := by
  rw [test]
  split
  · exact ⟨rfl, (Calm.refl s).move t (by simp) (by simp)⟩
  · exact ⟨rfl, (Calm.refl s).move t (by simp) (by simp)⟩

theorem post_calm (s : PthreadCond τ) : s.post.m = s.m ∧ Calm s s.post := by
  rw [post]
  split
  · exact ⟨rfl, .refl s⟩
  · exact ⟨rfl, (Calm.refl s).move _ (by decide) (by decide)⟩

/-- **What a step can do**: a step of the mutex, the entry into `pthread_cond_wait`, its `semP`, or
a step of `signal` or `broadcast`. -/
theorem step_cases (hs : s.step a = some s') :
    (∃ t op, a = (t, .mutex op) ∧ s.pc t = .out ∧ s.m.step (t, op) = some s'.m ∧ s'.pc = s.pc) ∨
      s'.m = s.m ∧
        ((∃ t, a = (t, .wait) ∧ t ∈ s.m.holders ∧ (s'.pc = s.pc ∨ s'.pc = update s.pc t .semP)) ∨
          (∃ t, a = (t, .semP) ∧ s.pc t = .semP ∧
            s'.pc = update s.pc t (if 0 < s.kSem then .out else .blocked)) ∨
          (∀ t, a ≠ (t, .wait)) ∧ (∀ t, a ≠ (t, .semP)) ∧ Calm s s') := by
  obtain ⟨t, op⟩ := a
  cases op with
  | mutex op =>
    obtain ⟨hpc, hs⟩ := Option.ite_none_right_eq_some.mp hs
    obtain ⟨m, hm, rfl⟩ := Option.map_eq_some_iff.mp hs
    exact .inl ⟨t, op, rfl, hpc, hm, rfl⟩
  | wait =>
    obtain ⟨⟨-, hmem⟩, rfl⟩ := Option.ite_some_none_eq_some.mp hs
    dsimp only
    split
    · exact .inr ⟨rfl, .inl ⟨t, rfl, hmem, .inl rfl⟩⟩
    · exact .inr ⟨rfl, .inl ⟨t, rfl, hmem, .inr rfl⟩⟩
  | semP =>
    obtain ⟨hpc, rfl⟩ := Option.ite_some_none_eq_some.mp hs
    split
    · exact .inr ⟨rfl, .inr (.inl ⟨t, rfl, hpc, rfl⟩)⟩
    · exact .inr ⟨rfl, .inr (.inl ⟨t, rfl, hpc, rfl⟩)⟩
  | signal =>
    obtain ⟨-, hs⟩ := Option.ite_none_right_eq_some.mp hs
    obtain ⟨hm, hcalm⟩ := s.test_calm t false
    exact Option.some.inj hs ▸ .inr ⟨hm, .inr (.inr ⟨by simp, by simp, hcalm⟩)⟩
  | broadcast =>
    obtain ⟨-, hs⟩ := Option.ite_none_right_eq_some.mp hs
    obtain ⟨hm, hcalm⟩ := s.test_calm t true
    exact Option.some.inj hs ▸ .inr ⟨hm, .inr (.inr ⟨by simp, by simp, hcalm⟩)⟩
  | inc =>
    simp only [step] at hs
    split at hs
    · rename_i broadcast _
      cases hs
      refine .inr ⟨rfl, .inr (.inr ⟨by simp, by simp, ?_⟩)⟩
      split
      · exact (Calm.refl s).after t broadcast
      · exact (Calm.refl s).move t (by simp) (by simp)
    · cases hs
  | semV =>
    simp only [step] at hs
    split at hs
    · rename_i broadcast _
      obtain ⟨hm, hcalm⟩ := s.post_calm
      exact Option.some.inj hs ▸ .inr ⟨hm, .inr (.inr ⟨by simp, by simp, hcalm.after t broadcast⟩)⟩
    · cases hs

/-- Whoever is in `pthread_cond_wait` keeps the mutex. -/
theorem holds_step (hs : s.step a = some s') (h : s.Waits t ∨ a = (t, .wait))
    (ht : t ∈ s.m.holders) : t ∈ s'.m.holders := by
  obtain ⟨u, op, rfl, hpc, hm, -⟩ | ⟨hm, -⟩ := step_cases hs
  · have htu : t ≠ u := by
      rintro rfl
      obtain (h | h) | h := h
      · simp [hpc] at h
      · simp [hpc] at h
      · simp at h
    exact (PthreadMutex.mem_holders_step hm htu).mpr ht
  · rwa [hm]

/-- **The invariant**: whoever is in `pthread_cond_wait` holds the mutex. -/
def Inv (s : PthreadCond τ) : Prop := ∀ t, s.Waits t → t ∈ s.m.holders

theorem Inv.step (h : s.Inv) (hs : s.step a = some s') : s'.Inv := by
  intro t ht
  by_cases hwas : s.Waits t
  · exact holds_step hs (.inl hwas) (h t hwas)
  · -- the thread has entered by this step
    obtain ⟨u, op, -, -, -, hpc⟩ | ⟨hm, ⟨u, rfl, hu, hpc⟩ | ⟨u, rfl, hu, hpc⟩ | ⟨-, -, hcalm⟩⟩ :=
      step_cases hs
    · rw [Waits, hpc] at ht
      exact absurd ht hwas
    · by_cases htu : t = u
      · rwa [hm, htu]
      · have hsame : s'.pc t = s.pc t := by
          obtain hpc | hpc := hpc
          · rw [hpc]
          · rw [hpc, update_of_ne htu]
        rw [Waits, hsame] at ht
        exact absurd ht hwas
    · by_cases htu : t = u
      · exact absurd (.inl (htu ▸ hu)) hwas
      · rw [Waits, hpc, update_of_ne htu] at ht
        exact absurd ht hwas
    · have hsame := hcalm t ht
      rw [Waits, hsame] at ht
      exact absurd ht hwas

/-- Nobody blocks in `pthread_cond_wait` but by a `semP` that finds no token. -/
theorem blocked_step (hs : s.step a = some s') (ht : s'.pc t = .blocked)
    (hwas : s.pc t ≠ .blocked) : ¬s.Token a := by
  obtain ⟨u, op, -, -, -, hpc⟩ | ⟨-, ⟨u, rfl, -, hpc⟩ | ⟨u, rfl, -, hpc⟩ | ⟨-, -, hcalm⟩⟩ :=
    step_cases hs
  · exact absurd (hpc ▸ ht) hwas
  · obtain hpc | hpc := hpc
    · exact absurd (hpc ▸ ht) hwas
    · rw [hpc, update_apply] at ht
      split at ht
      · cases ht
      · exact absurd ht hwas
  · intro (htoken : 0 < s.kSem)
    rw [hpc, if_pos htoken, update_apply] at ht
    split at ht
    · cases ht
    · exact absurd ht hwas
  · exact absurd ((hcalm t (.inr ht)).symm.trans ht) hwas

/-- A `semP` that finds no token blocks its thread. -/
theorem blocks_of_not_token (hs : s.step a = some s') (ha : ¬s.Token a) : s'.pc a.1 = .blocked := by
  obtain ⟨u, op, rfl, -⟩ | ⟨-, ⟨u, rfl, -⟩ | ⟨u, rfl, -, hpc⟩ | ⟨-, hne, -⟩⟩ := step_cases hs
  · exact absurd trivial ha
  · exact absurd trivial ha
  · have hempty : ¬0 < s.kSem := ha
    rw [hpc, if_neg hempty, update_self]
  · obtain ⟨u, op⟩ := a
    cases op with
    | semP => exact absurd rfl (hne u)
    | mutex | wait | signal | broadcast | inc | semV => exact absurd trivial ha

/-! ## Runs -/

/-- What is expected of a step: a thread that is blocked in `pthread_cond_wait` does not hold the
mutex; it holds it when the call returns; and a `signal` with the mutex held, after a waiter has
released it, wakes a waiter or leaves a token for one. -/
structure Expected (s : PthreadCond τ) (a : τ × Op) (s' : PthreadCond τ) : Prop where
  released : ∀ t, s'.pc t = .blocked → t ∉ s'.m.holders
  returned : ∀ t, s.Waits t ∨ a = (t, .wait) → ¬s'.Waits t → t ∈ s'.m.holders
  woken : ∀ u, a = (u, .signal) → u ∈ s.m.holders → (∃ t, s.Waits t ∧ t ∉ s.m.holders) →
    ∃ s'', run step s' [(u, .inc), (u, .semV)] = some s'' ∧
      ((∃ t, s.Waits t ∧ ¬s''.Waits t) ∨ 0 < s''.kSem)

/-- From a state where nobody is blocked, a step is as expected if and only if it does not block. -/
theorem expected_iff (h : s.Inv) (hnone : ∀ t, s.pc t ≠ .blocked) (hs : s.step a = some s') :
    Expected s a s' ↔ s.Token a := by
  constructor
  · intro hexp
    by_contra ha
    have hb := blocks_of_not_token hs ha
    exact hexp.released a.1 hb (h.step hs a.1 (.inr hb))
  · intro ha
    refine ⟨fun t ht => absurd ha (blocked_step hs ht (hnone t)), fun t ht _ => ?_, ?_⟩
    · refine holds_step hs ht ?_
      obtain ht | rfl := ht
      · exact h t ht
      · exact (Option.ite_none_right_eq_some.mp hs).1.2
    · rintro u - - ⟨t, ht, hno⟩
      exact absurd (h t ht) hno

/-- Along a run from a state where nobody is blocked. -/
theorem expected_run_iff : ∀ {as : List (τ × Op)} {s s' : PthreadCond τ}, s.Inv →
      (∀ t, s.pc t ≠ .blocked) → run step s as = some s' →
      (Guarded step (fun s a => ∀ s', s.step a = some s' → Expected s a s') s as ↔
      Guarded step Token s as)
  | [], _, _, _, _, _ => Iff.rfl
  | a :: as, s, s', h, hnone, hrun => by
    obtain ⟨s₁, hs, hrun⟩ := run_cons.mp hrun
    have hone := expected_iff h hnone hs
    have hrest (ha : s.Token a) := expected_run_iff (h.step hs)
      (fun t ht => blocked_step hs ht (hnone t) ha) hrun
    constructor
    · rintro ⟨hexp, hg⟩
      have ha := hone.mp (hexp s₁ hs)
      exact guarded_cons ha hs ((hrest ha).mp (hg s₁ hs))
    · rintro ⟨ha, hg⟩
      refine guarded_cons (fun s₂ hs₂ => ?_) hs ((hrest ha).mpr (hg s₁ hs))
      obtain rfl := Option.some.inj (hs.symm.trans hs₂)
      exact hone.mpr ha

/-- **`pthread_cond_wait` does not release the mutex.**  In a run of any number of threads that lock
and unlock the mutex, wait, signal and broadcast, every step is as expected if and only if no thread
ever blocks in `pthread_cond_wait`, because each of them finds a token that a `signal` has posted
between its `--counter` and its `semP`. -/
theorem cond_wait_releases_iff {as : List (τ × Op)} (hrun : run step init as = some s) :
    Guarded step (fun s a => ∀ s', s.step a = some s' → Expected s a s') init as ↔
      Guarded step Token init as :=
  expected_run_iff (fun _ ht => by simp [Waits, init] at ht) (by simp [init]) hrun

/-- Thread 1 signals, without the mutex, just before thread 0 gets to its `semP`. -/
theorem cond_wait_releases_iff_token : ∃ s : PthreadCond (Fin 2),
    run step init [(0, .mutex .lock), (0, .wait), (1, .signal), (1, .inc), (1, .semV), (0, .semP)] =
      some s ∧ s.pc 0 = .out ∧
      Guarded step (fun s a => ∀ s', s.step a = some s' → Expected s a s') init
        [((0 : Fin 2), .mutex .lock), (0, .wait), (1, .signal), (1, .inc), (1, .semV),
          (0, .semP)] :=
  exists_run_and (by decide) fun _ hrun _ =>
    (cond_wait_releases_iff hrun).mpr (guarded_of_decide (by decide))

/-- **Blocked with the mutex held**: a thread locks the mutex and waits. -/
theorem cond_wait_keeps_mutex : ∃ s : PthreadCond (Fin 1),
    run step init [(0, .mutex .lock), (0, .wait), (0, .semP)] = some s ∧ s.pc 0 = .blocked ∧
      0 ∈ s.m.holders :=
  exists_run (by decide)

end PthreadCond

end Kos

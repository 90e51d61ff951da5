import KosKernel.Runtime.Semaphore

/-!
# Kernel/SemStore — `semDestroy` and the calls that still use the semaphore

`semP`, `semV` and `semDestroy` of `kernel/syscalls.cc` on one id.  All three look the id up under
`semStoreLock`.  `P` and `V` then hand over to the semaphore's own lock (`SpinLock::acquire(l)`
takes it and then releases `l`), while `semDestroy` tests the wait queue and deletes the semaphore.

A thread that waits for the semaphore's lock still holds `semStoreLock`, so `semDestroy` cannot run.
A thread that has the lock does not: its semaphore is deleted under it (`semDestroy_under_P`),
unless the callers keep `semDestroy` apart from the other two (`semDestroy_safe`).
-/

namespace Kos

open Function Runs

/-- The calls that use a semaphore. -/
inductive SemUse
  | P
  | V
  deriving DecidableEq

inductive SemCall
  | use (u : SemUse)
  | destroy
  deriving DecidableEq

/-- Where a thread is in its system call. -/
inductive SemPc
  | out
  /-- `semStoreLock.acquire()` -/
  | enter (call : SemCall)
  /-- `lock.acquire(l)`: the thread has `semStoreLock` and waits for the semaphore's lock -/
  | handOver (u : SemUse)
  /-- the thread has the semaphore's lock -/
  | inside (u : SemUse)
  /-- in `bq.block` -/
  | queued
  deriving DecidableEq

/-- One id of `semStore`: whether it is `valid`, and the semaphore; `ret` is the result of a
thread's last call. -/
structure SemStore (τ : Type) where
  pc : τ → SemPc
  ret : τ → ℤ
  semStoreLock : Bool
  valid : Bool
  lock : Bool
  sem : Semaphore τ

namespace SemStore

variable {τ : Type} [DecidableEq τ]

inductive Action (τ : Type)
  | call (t : τ) (call : SemCall)
  /-- the next section of a thread's call -/
  | advance (t : τ)
  /-- `V` goes on for the thread that it has resumed -/
  | wake (c : Claim τ)
  /-- a thread is dispatched after its wake-up -/
  | dispatch (t : τ)

/-- After `semCreate`. -/
def init (c : ℕ) : SemStore τ := ⟨fun _ => .out, fun _ => 0, false, true, false, Semaphore.init c⟩

variable (m : SemStore τ)

def go (t : τ) (pc : SemPc) : SemStore τ := { m with pc := update m.pc t pc }

def leave (t : τ) (ret : ℤ) : SemStore τ :=
  { m with pc := update m.pc t .out, ret := update m.ret t ret }

/-- The section under `semStoreLock`, from a state in which it is free; `semP` and `semV` keep
it. -/
def enter (t : τ) : SemCall → SemStore τ
  | .use u => if m.valid then { m with semStoreLock := true }.go t (.handOver u) else m.leave t (-1)
  | .destroy =>
    if m.valid = false ∨ m.sem.b.queue () ≠ [] then m.leave t (-1)
    else { m with valid := false }.leave t 0

/-- The section under the semaphore's lock. -/
def body (t : τ) : SemUse → SemStore τ
  | .P =>
    let sem := m.sem.internalP t limit
    if sem.b.pc t = .suspended then { m with sem, lock := false }.go t .queued
    else { m with sem, lock := false }.leave t 0
  | .V => { m with sem := m.sem.V, lock := false }.leave t 0

/-- The next section of a thread; a lock that is not free is no step, and neither is a section on a
semaphore that has been deleted. -/
def advance (t : τ) : Option (SemStore τ) :=
  match m.pc t with
  | .out => none
  | .enter call => if m.semStoreLock then none else some (m.enter t call)
  | .handOver u =>
    if m.lock then none else some ({ m with lock := true, semStoreLock := false }.go t (.inside u))
  | .inside u => if m.valid then some (m.body t u) else none
  | .queued => none

def step : Action τ → Option (SemStore τ)
  | .call t call => if m.pc t = .out then some (m.go t (.enter call)) else none
  | .advance t => m.advance t
  | .wake c =>
    if c ∈ m.sem.b.calls then some { m with sem := { m.sem with b := m.sem.b.advance c } } else none
  | .dispatch t =>
    if m.pc t = .queued ∧
      m.sem.b.pc t = .ready then some ({ m with sem := m.sem.dispatch t }.leave t 0)
    else none

/-! ## The statement -/

/-- A thread has the semaphore's lock or waits for it. -/
def Uses : SemPc → Prop
  | .handOver _ => True
  | .inside _ => True
  | _ => False

/-- The semaphore is deleted only while no thread uses it and none is queued. -/
def Safe : Prop := m.valid = false → (∀ t, ¬ Uses (m.pc t)) ∧ m.sem.b.queue () = []

/-- A thread is in `semP` or `semV` and not queued. -/
def Active : SemPc → Prop
  | .enter (.use _) => True
  | .handOver _ => True
  | .inside _ => True
  | _ => False

instance : DecidablePred Active
  | .enter (.use _) => .isTrue trivial
  | .handOver _ => .isTrue trivial
  | .inside _ => .isTrue trivial
  | .out => .isFalse id
  | .enter .destroy => .isFalse id
  | .queued => .isFalse id

/-- `semDestroy` is called only while no `semP` or `semV` is under way, except for threads in the
queue, and `semP` and `semV` only while no `semDestroy` is. -/
def Apart : Action τ → Prop
  | .call _ .destroy => ∀ u, ¬ Active (m.pc u)
  | .call _ (.use _) => ∀ u, m.pc u ≠ .enter .destroy
  | _ => True

instance [Fintype τ] (m : SemStore τ) : DecidablePred m.Apart
  | .call _ .destroy => inferInstanceAs (Decidable (∀ _, _))
  | .call _ (.use _) => inferInstanceAs (Decidable (∀ _, _))
  | .advance _ => .isTrue trivial
  | .wake _ => .isTrue trivial
  | .dispatch _ => .isTrue trivial

/-! ## One step -/

/-- What holds in every run that keeps `semDestroy` apart. -/
structure Inv (m : SemStore τ) : Prop where
  safe : Safe m
  apart : ∀ t u, m.pc t = .enter .destroy → ¬ Active (m.pc u)

variable {m m' : SemStore τ} {t : τ}

theorem Active.of_uses {pc : SemPc} (h : Uses pc) : Active pc := by
  cases pc with
  | handOver | inside => trivial
  | out | enter | queued => exact h.elim

/-- A thread goes on, and becomes active only if it was. -/
theorem apart_update {pc : τ → SemPc} {pc' : SemPc}
    (h : ∀ t u, pc t = .enter .destroy → ¬ Active (pc u)) (hd : pc' ≠ .enter .destroy)
    (ha : Active pc' → Active (pc t)) (v u : τ) (hv : update pc t pc' v = .enter .destroy) :
    ¬ Active (update pc t pc' u) := by
  have hvt : v ≠ t := by
    rintro rfl
    rw [update_self] at hv
    exact hd hv
  rw [update_of_ne hvt] at hv
  intro hu
  by_cases hut : u = t
  · rw [hut, update_self] at hu
    exact h v t hv (ha hu)
  · rw [update_of_ne hut] at hu
    exact h v u hv hu

/-- A thread that does not use the semaphore goes on without using it. -/
theorem uses_update {pc : τ → SemPc} {pc' : SemPc} (h : ∀ u, ¬ Uses (pc u)) (hpc : ¬ Uses pc')
    (u : τ) : ¬ Uses (update pc t pc' u) := by
  by_cases hut : u = t
  · rwa [hut, update_self]
  · rw [update_of_ne hut]
    exact h u

/-- A step after which the semaphore is as valid as before and its queue as empty. -/
theorem Inv.updated {pc' : SemPc} (h : Inv m) (hpc : m'.pc = update m.pc t pc')
    (hvalid : m'.valid = m.valid)
    (hqueue : m.valid = false → m.sem.b.queue () = [] → m'.sem.b.queue () = [])
    (huse : m.valid = false → ¬ Uses pc') (hd : pc' ≠ .enter .destroy)
    (ha : Active pc' → Active (m.pc t)) : Inv m' where
  safe := fun hv => by
    rw [hvalid] at hv
    obtain ⟨hnone, hempty⟩ := h.safe hv
    exact ⟨hpc ▸ uses_update hnone (huse hv), hqueue hv hempty⟩
  apart := by
    rw [hpc]
    exact apart_update h.apart hd ha

/-- The section of `semDestroy`. -/
theorem Inv.destroy (h : Inv m) (hpc : m.pc t = .enter .destroy) : Inv (m.enter t .destroy) := by
  rw [enter]
  split
  case isTrue => exact h.updated rfl rfl (fun _ => id) (fun _ => id) (by decide) nofun
  case isFalse hdel =>
    have hempty : m.sem.b.queue () = [] := by
      by_contra hne
      exact hdel (Or.inr hne)
    exact
      { safe := fun _ => ⟨uses_update (fun u hu => h.apart t u hpc (.of_uses hu)) id, hempty⟩
        apart := apart_update h.apart (by decide) nofun }

/-- The section of `P` or `V`, on a semaphore that is not deleted. -/
theorem Inv.body (h : Inv m) {u : SemUse} (hpc : m.pc t = .inside u) (hv : m.valid = true) :
    Inv (m.body t u) := by
  have hnot : ∀ {Q : Prop}, m.valid = false → Q := fun hf => absurd (hv.symm.trans hf) (by decide)
  cases u with
  | P =>
    simp only [SemStore.body]
    split
    case isTrue => exact h.updated rfl rfl (fun hf => hnot hf) (fun _ => id) (by decide) nofun
    case isFalse => exact h.updated rfl rfl (fun hf => hnot hf) (fun _ => id) (by decide) nofun
  | V => exact h.updated rfl rfl (fun hf => hnot hf) (fun _ => id) (by decide) nofun

theorem Inv.advance (h : Inv m) (hs : m.advance t = some m') : Inv m' := by
  cases hpc : m.pc t
  all_goals rw [SemStore.advance, hpc] at hs
  case out => cases hs
  case queued => cases hs
  case enter call =>
    obtain ⟨-, hs⟩ := Option.ite_none_left_eq_some.mp hs
    cases hs
    cases call with
    | destroy => exact h.destroy hpc
    | use u =>
      rw [enter]
      split
      case isTrue hv =>
        exact h.updated rfl rfl (fun _ => id) (fun hf =>
          absurd (hv.symm.trans hf) (by decide)) nofun fun _ => hpc ▸ trivial
      case isFalse => exact h.updated rfl rfl (fun _ => id) (fun _ => id) nofun nofun
  case handOver u =>
    obtain ⟨-, hs⟩ := Option.ite_none_left_eq_some.mp hs
    cases hs
    refine h.updated rfl rfl (fun _ => id) (fun hf => ?_) nofun fun _ => hpc ▸ trivial
    exact absurd (hpc ▸ trivial : Uses (m.pc t)) ((h.safe hf).1 t)
  case inside u =>
    obtain ⟨hv, rfl⟩ := Option.ite_some_none_eq_some.mp hs
    exact h.body hpc hv

/-- A claim takes threads out of a queue only. -/
theorem queue_advance_eq_nil {b : Blocking Unit τ} (c : Claim τ) (h : b.queue () = []) :
    (b.advance c).queue () = [] := by
  rw [Blocking.advance]
  split
  case h_3 =>
    show b.unlink c.thread (b.info c.thread).queue () = []
    cases (b.info c.thread).queue with
    | none => exact h
    | some k => simp [Blocking.unlink, h]
  all_goals exact h

theorem queue_dispatch (m : Semaphore τ) (t : τ) : (m.dispatch t).b.queue = m.b.queue := by
  simp only [Semaphore.dispatch, Blocking.dispatch]
  split <;> rfl

/-- **Every step keeps the invariant.** -/
theorem Inv.step {a : Action τ} (h : Inv m) (hg : m.Apart a) (hs : m.step a = some m') :
    Inv m' := by
  cases a with
  | call t call =>
    obtain ⟨hpc, rfl⟩ := Option.ite_some_none_eq_some.mp hs
    refine ⟨fun hv => ⟨uses_update (h.safe hv).1 id, (h.safe hv).2⟩, fun v u hv hu => ?_⟩
    change update m.pc t _ v = _ at hv
    change Active (update m.pc t _ u) at hu
    cases call with
    | destroy =>
      by_cases hut : u = t
      · rw [hut, update_self] at hu
        exact hu
      · rw [update_of_ne hut] at hu
        exact hg u hu
    | use =>
      by_cases hvt : v = t
      · rw [hvt, update_self] at hv
        cases hv
      · rw [update_of_ne hvt] at hv
        exact hg v hv
  | advance t => exact h.advance hs
  | wake c =>
    obtain ⟨-, rfl⟩ := Option.ite_some_none_eq_some.mp hs
    exact ⟨fun hv => ⟨(h.safe hv).1, queue_advance_eq_nil c (h.safe hv).2⟩, h.apart⟩
  | dispatch t =>
    obtain ⟨-, rfl⟩ := Option.ite_some_none_eq_some.mp hs
    refine h.updated rfl rfl (fun _ hempty => ?_) (fun _ => id) nofun nofun
    rw [leave, queue_dispatch]
    exact hempty

/-! ## Whole runs -/

omit [DecidableEq τ] in
theorem inv_init (c : ℕ) : Inv (init c : SemStore τ) where
  safe := fun h => by cases h
  apart := fun _ _ h => by cases h

/-- **`semDestroy` is safe if it is kept apart from `semP` and `semV`.** -/
theorem semDestroy_safe {c : ℕ} {as : List (Action τ)} (hrun : run step (init c) as = some m)
    (hg : Guarded step Apart (init c : SemStore τ) as) : Safe m :=
  (invariant_of_guarded Inv.step (inv_init c) hg hrun).safe

/-- A thread waits and is resumed, `semDestroy` fails while it is queued and succeeds afterwards,
and `semP` on the id then fails. -/
theorem semDestroy_safe_afterP : ∃ m : SemStore Bool,
    run step (init 0) [[.call true (.use .P)], .replicate 3 (.advance true),
      [.call false .destroy, .advance false], [.call false (.use .V)],
      .replicate 3 (.advance false),
      [.wake ⟨true, .resume, .cancelTimeout⟩, .wake ⟨true, .resume, .wake⟩, .dispatch true],
      [.call false .destroy, .advance false, .call true (.use .P), .advance true]].flatten =
      some m ∧ (m.valid = false ∧ m.ret true = -1) ∧ Safe m :=
  exists_run_and (by decide +kernel) fun _ hrun _ =>
    semDestroy_safe hrun (guarded_of_decide (by decide +kernel))

/-- **The semaphore is deleted under a thread**: `P` has taken its lock and given up `semStoreLock`,
and is not yet in the queue. -/
theorem semDestroy_under_P : ∃ m : SemStore Bool,
    run step (init 0) [.call true (.use .P), .advance true, .advance true, .call false .destroy,
      .advance false] = some m ∧
      m.valid = false ∧ m.ret false = 0 ∧ m.pc true = .inside .P ∧ m.lock = true ∧ ¬ Safe m := by
  have hrun : ∃ m : SemStore Bool, run step (init 0) [.call true (.use .P), .advance true,
      .advance true, .call false .destroy, .advance false] = some m ∧
      m.valid = false ∧ m.ret false = 0 ∧ m.pc true = .inside .P ∧ m.lock = true :=
    exists_run (by decide +kernel)
  obtain ⟨m, hm, hvalid, hret, hpc, hlock⟩ := hrun
  refine ⟨m, hm, hvalid, hret, hpc, hlock, fun hsafe => (hsafe hvalid).1 true ?_⟩
  rw [hpc]
  trivial

end SemStore

end Kos

import KosKernel.Generic.ManagedArray
import KosKernel.Runtime.Waits

/-!
# Kernel/Threads — creating, joining and ending the threads of a process

`Process::createThread`, `exitThread`, `joinThread` and `destroyThread` of `kernel/Process.cc`, with
`JoinableThread` of `runtime/JoinableThread.h`.  One `Condition` serves both directions: whoever
comes first, the joiner or the thread that exits, leaves a pointer to its variable in `result` and
waits; the other one copies the result from or to that variable and signals.

A section under `threadLock` is one step.  `passed` and `joins` record a run: what a thread passed
to `exitThread`, and the calls of `joinThread` that have returned zero.
-/

namespace Kos

open Function Runs

/-- `JoinableThread::State`. -/
inductive JoinState
  | regular
  | detached
  | joining
  deriving DecidableEq

/-- Where a thread is. -/
inductive ThreadPc (τ : Type)
  | unborn
  | user
  /-- in `wait.wait` of `join` on the thread `e` -/
  | joining (e : τ)
  /-- in `wait.wait` of `post` -/
  | posting
  /-- in `terminate` -/
  | finishing
  | destroyed
  deriving DecidableEq

/-- The threads of a process.  The `Condition` of a thread is the queue of that name; `result`
points to the variable of a thread: the parameter of its `post`, or what its `joinThread`
returns. -/
structure Threads (τ V : Type) where
  b : Blocking τ τ
  threadLock : Bool
  threadStore : ManagedArray τ
  idx : τ → ℕ
  state : τ → JoinState
  result : τ → Option τ
  var : τ → Option V
  pc : τ → ThreadPc τ
  ret : τ → ℤ
  passed : τ → Option V
  joins : List (τ × τ × Option V)

namespace Threads

variable {τ V : Type} [DecidableEq τ]

inductive Action (τ V : Type)
  | createThread (t u : τ)
  | exitThread (t : τ) (result : V)
  | joinThread (t : τ) (idx : ℕ)
  /-- `destroyThread`, after the thread has been switched out for the last time -/
  | destroyThread (t : τ)
  /-- `signal` goes on for the thread that it has resumed -/
  | wake (c : Claim τ)
  /-- a thread is dispatched after its wake-up -/
  | dispatch (t : τ)

def ESRCH : ℤ := 3

def EINVAL : ℤ := 22

/-! ## The code -/

variable (m : Threads τ V)

def go (t : τ) (pc : ThreadPc τ) : Threads τ V :=
  { m with pc := update m.pc t pc }

/-- The `put` of `createThread`. -/
def enroll (u : τ) : Threads τ V :=
  let r := m.threadStore.put u
  { m with threadStore := r.2, idx := update m.idx u r.1 }.go u .user

/-- A process with its first thread. -/
def init (t : τ) : Threads τ V :=
  { b := Blocking.init
    threadLock := false
    threadStore := .init 1
    idx := fun _ => 0
    state := fun _ => .regular
    result := fun _ => none
    var := fun _ => none
    pc := fun _ => .unborn
    ret := fun _ => 0
    passed := fun _ => none
    joins := [] : Threads τ V }.enroll t

/-- `joinThread` returns zero to `t`, after a `join` on `e`. -/
def joined (t e : τ) : Threads τ V :=
  { m with ret := update m.ret t 0, joins := m.joins ++ [(t, e, m.var t)] }.go t .user

/-- `joinThread` returns an error. -/
def refuse (t : τ) (e : ℤ) : Threads τ V :=
  { m with threadLock := false, ret := update m.ret t (-e) }

/-- `Condition::wait`, which releases the lock: whether the thread waits now. -/
def wait (t e : τ) : Bool × Threads τ V :=
  let r := m.b.block t e limit
  (r.1, { m with b := r.2, threadLock := false })

/-- `Condition::signal`, which releases the lock in any case. -/
def signal (e : τ) : Threads τ V :=
  { m with b := (m.b.resume e).2, threadLock := false }

/-- `post`, and then `terminate`. -/
def post (t : τ) (res : V) : Threads τ V :=
  let m := { m with var := update m.var t (some res) }
  -- a detached thread would return with the lock
  if m.state t = .detached then m.go t .finishing
  else if m.b.queue t = [] then
    let r := { m with result := update m.result t (some t) }.wait t t
    r.2.go t (if r.1 then .posting else .finishing)
  else
    let var := (m.result t).elim m.var fun u => update m.var u (some res)
    ({ m with var }.signal t).go t .finishing

/-- `join`, for a thread that is `Regular`. -/
def join (t e : τ) : Threads τ V :=
  let m := { m with state := update m.state e .joining }
  if m.b.queue e = [] then
    let r := { m with result := update m.result e (some t) }.wait t e
    if r.1 then r.2.go t (.joining e) else r.2.joined t e
  else ({ m with var := update m.var t ((m.result e).bind m.var) }.signal e).joined t e

/-- `exitThread`, with `threadLock` acquired. -/
def exitThread (t : τ) (result : V) : Threads τ V :=
  let m := { m with passed := update m.passed t (some result) }
  if m.threadStore.size > 1 then m.post t result
  else { m with threadLock := false }.go t .finishing

/-- `joinThread`, with `threadLock` acquired; a null pointer in a valid field is no step. -/
def joinThread (t : τ) (i : ℕ) : Option (Threads τ V) :=
  if m.threadStore.valid i then
    (m.threadStore.data i).map fun e =>
      if m.state e = .regular then m.join t e else m.refuse t EINVAL
  else some (m.refuse t ESRCH)

/-- A thread that has been resumed goes on: `exitThread` calls `terminate`, and `joinThread`
returns. -/
def goOn (t : τ) : Option (Threads τ V) :=
  let m := { m with b := m.b.dispatch t }
  match m.pc t with
  | .posting => some (m.go t .finishing)
  | .joining e => some (m.joined t e)
  | _ => none

/-- The sections of the calls of a thread that runs in user mode start by acquiring `threadLock`. -/
def locked (t : τ) : Option (Threads τ V) :=
  if m.pc t = .user ∧ m.threadLock = false then some { m with threadLock := true } else none

def step : Action τ V → Option (Threads τ V)
  | .createThread t u =>
    if m.pc u = .unborn then
      (m.locked t).map fun m => { m.enroll u with threadLock := false }
    else none
  | .exitThread t result => (m.locked t).map fun m => m.exitThread t result
  | .joinThread t i => (m.locked t).bind fun m => m.joinThread t i
  | .destroyThread t =>
    if m.pc t = .finishing ∧ m.threadLock = false then
      some ({ m with threadStore := m.threadStore.remove (m.idx t) }.go t .destroyed)
    else none
  | .wake c => if c ∈ m.b.calls then some { m with b := m.b.advance c } else none
  | .dispatch t => if m.b.pc t = .ready then m.goOn t else none

/-- `signal` goes on for the thread `t`, which is then dispatched. -/
def woken (t : τ) : List (Action τ V) :=
  [.wake ⟨t, .resume, .cancelTimeout⟩, .wake ⟨t, .resume, .wake⟩, .dispatch t]

/-! ## What a step does to a thread -/

/-- A thread that has not called `exitThread`. -/
def Works : ThreadPc τ → Prop
  | .user | .joining _ => True
  | .unborn | .posting | .finishing | .destroyed => False

instance : (p : ThreadPc τ) → Decidable (Works p)
  | .user | .joining _ => .isTrue trivial
  | .unborn | .posting | .finishing | .destroyed => .isFalse id

/-- A thread that has been created and not been destroyed. -/
def Lives : ThreadPc τ → Prop
  | .unborn | .destroyed => False
  | .user | .joining _ | .posting | .finishing => True

/-- Neither the store nor the index of a thread changes; the thread `t` goes to `p`. -/
structure Goes (m m' : Threads τ V) (t : τ) (p : ThreadPc τ) : Prop where
  threadStore : m'.threadStore = m.threadStore
  idx : m'.idx = m.idx
  pc : m'.pc = update m.pc t p

/-- What a step does to the threads and to the store, by its action. -/
inductive Moved (m m' : Threads τ V) : Action τ V → Prop
  | created {t u} (hpc : m.pc u = .unborn) (hm' : m' = m.enroll u) : Moved m m' (.createThread t u)
  | exited {t v p} (hpc : m.pc t = .user)
      (hp : p = .finishing ∨ p = .posting ∧ 1 < m.threadStore.size) (hgoes : Goes m m' t p) :
      Moved m m' (.exitThread t v)
  | worked {a t p} (hpc : Works (m.pc t)) (hp : Works p) (hgoes : Goes m m' t p) : Moved m m' a
  | finished {a t} (hpc : m.pc t = .posting) (hgoes : Goes m m' t .finishing) : Moved m m' a
  | idle {a} (hstore : m'.threadStore = m.threadStore) (hidx : m'.idx = m.idx)
      (hpc : m'.pc = m.pc) : Moved m m' a
  | destroyed {t} (hpc : m.pc t = .finishing)
      (hstore : m'.threadStore = m.threadStore.remove (m.idx t)) (hidx : m'.idx = m.idx)
      (hm' : m'.pc = update m.pc t .destroyed) : Moved m m' (.destroyThread t)

variable {m m' : Threads τ V} {t u e : τ} {v : V} {i : ℕ}

theorem locked_eq_some (h : m.locked t = some m') :
    m.pc t = .user ∧ m.threadLock = false ∧ m' = { m with threadLock := true } := by
  obtain ⟨⟨hpc, hlock⟩, h⟩ := Option.ite_none_right_eq_some.mp h
  exact ⟨hpc, hlock, (Option.some.inj h).symm⟩

theorem post_goes (m : Threads τ V) (t : τ) (v : V) :
    Goes m (m.post t v) t .finishing ∨ Goes m (m.post t v) t .posting := by
  rw [post]
  split
  · exact .inl ⟨rfl, rfl, rfl⟩
  · split
    · cases hwait : (m.b.block t t limit).1
      · refine .inl ⟨rfl, rfl, ?_⟩
        simp [wait, go, hwait]
      · refine .inr ⟨rfl, rfl, ?_⟩
        simp [wait, go, hwait]
    · exact .inl ⟨rfl, rfl, rfl⟩

theorem exitThread_goes (m : Threads τ V) (t : τ) (v : V) : ∃ p,
    (p = .finishing ∨ p = .posting ∧ 1 < m.threadStore.size) ∧ Goes m (m.exitThread t v) t p := by
  rw [exitThread]
  split
  case isTrue hsize =>
    rcases post_goes { m with passed := update m.passed t (some v) } t v with h | h
    · exact ⟨_, .inl rfl, h.threadStore, h.idx, h.pc⟩
    · exact ⟨_, .inr ⟨rfl, hsize⟩, h.threadStore, h.idx, h.pc⟩
  case isFalse => exact ⟨_, .inl rfl, rfl, rfl, rfl⟩

theorem join_goes (m : Threads τ V) (t e : τ) : ∃ p, Works p ∧ Goes m (m.join t e) t p := by
  simp only [join]
  split
  · split
    · exact ⟨.joining e, trivial, rfl, rfl, rfl⟩
    · exact ⟨.user, trivial, rfl, rfl, rfl⟩
  · exact ⟨.user, trivial, rfl, rfl, rfl⟩

theorem joinThread_moved {a : Action τ V} (hpc : m.pc t = .user)
    (h : { m with threadLock := true }.joinThread t i = some m') : Moved m m' a := by
  rw [joinThread] at h
  split at h
  case isTrue =>
    obtain ⟨e, -, rfl⟩ := Option.map_eq_some_iff.mp h
    split
    case isTrue =>
      obtain ⟨p, hp, hgoes⟩ := join_goes { m with threadLock := true } t e
      exact .worked (by rw [hpc]; trivial) hp { hgoes with }
    case isFalse => exact .idle rfl rfl rfl
  case isFalse =>
    cases h
    exact .idle rfl rfl rfl

/-- **Every step is one of these.** -/
theorem step_moved {a : Action τ V} (hs : m.step a = some m') : Moved m m' a := by
  cases a with
  | createThread t u =>
    obtain ⟨hunborn, hs⟩ := Option.ite_none_right_eq_some.mp hs
    obtain ⟨m₀, hm₀, rfl⟩ := Option.map_eq_some_iff.mp hs
    obtain ⟨-, hlock, rfl⟩ := locked_eq_some hm₀
    exact .created hunborn (by simp [enroll, go, hlock])
  | exitThread t v =>
    obtain ⟨m₀, hm₀, rfl⟩ := Option.map_eq_some_iff.mp hs
    obtain ⟨hpc, -, rfl⟩ := locked_eq_some hm₀
    obtain ⟨p, hp, hgoes⟩ := exitThread_goes { m with threadLock := true } t v
    exact .exited hpc hp { hgoes with }
  | joinThread t i =>
    obtain ⟨m₀, hm₀, hs⟩ := Option.bind_eq_some_iff.mp hs
    obtain ⟨hpc, -, rfl⟩ := locked_eq_some hm₀
    exact joinThread_moved hpc hs
  | destroyThread t =>
    obtain ⟨⟨hpc, -⟩, rfl⟩ := Option.ite_some_none_eq_some.mp hs
    exact .destroyed hpc rfl rfl rfl
  | wake c =>
    obtain ⟨hc, rfl⟩ := Option.ite_some_none_eq_some.mp hs
    exact .idle rfl rfl rfl
  | dispatch t =>
    obtain ⟨hready, hs⟩ := Option.ite_none_right_eq_some.mp hs
    simp only [goOn] at hs
    split at hs
    case h_1 hpc =>
      cases hs
      exact .finished hpc ⟨rfl, rfl, rfl⟩
    case h_2 e hpc =>
      cases hs
      have hpc : m.pc t = .joining e := hpc
      exact .worked (by rw [hpc]; trivial) (p := .user) trivial ⟨rfl, rfl, rfl⟩
    case h_3 => cases hs

/-! ## The store -/

/-- The store holds the threads that live, each at its index. -/
structure Stored (m : Threads τ V) : Prop where
  sound : m.threadStore.Sound
  lookup : ∀ i u, m.threadStore.lookup i = some u ↔ m.idx u = i ∧ Lives (m.pc u)

omit [DecidableEq τ] in
theorem Works.lives {p : ThreadPc τ} (h : Works p) : Lives p := by
  cases p <;> trivial

/-- A thread that lives goes on living. -/
theorem Stored.goes (h : Stored m) {p : ThreadPc τ} (hlives : Lives (m.pc t)) (hp : Lives p)
    (hgoes : Goes m m' t p) : Stored m' := by
  refine ⟨hgoes.threadStore ▸ h.sound, fun i u => ?_⟩
  rw [hgoes.threadStore, hgoes.idx, hgoes.pc, h.lookup]
  by_cases hu : u = t
  · simp only [hu, update_self, hlives, hp]
  · rw [update_of_ne hu]

theorem Stored.enroll (h : Stored m) (hu : m.pc u = .unborn) : Stored (m.enroll u) := by
  refine ⟨h.sound.put u, fun i w => ?_⟩
  have hfresh := h.sound.lookup_fresh u
  show (m.threadStore.put u).2.lookup i = some w ↔
    update m.idx u (m.threadStore.put u).1 w = i ∧ Lives (update m.pc u .user w)
  rw [h.sound.lookup_put]
  by_cases hw : w = u
  · rw [hw, update_self, update_self]
    by_cases hi : i = (m.threadStore.put u).1
    · simp [hi, Lives]
    · -- the thread was nowhere before
      rw [update_of_ne hi, h.lookup, hu]
      exact iff_of_false And.right fun hi' => hi hi'.1.symm
  · rw [update_of_ne hw, update_of_ne hw]
    by_cases hi : i = (m.threadStore.put u).1
    · rw [hi, update_self]
      refine iff_of_false (fun huw => hw (Option.some.inj huw).symm) fun hlives => ?_
      rw [(h.lookup _ w).mpr hlives] at hfresh
      cases hfresh
    · rw [update_of_ne hi, h.lookup]

theorem Stored.remove (h : Stored m) (hpc : m.pc t = .finishing)
    (hstore : m'.threadStore = m.threadStore.remove (m.idx t)) (hidx : m'.idx = m.idx)
    (hpc' : m'.pc = update m.pc t .destroyed) : Stored m' := by
  have hself : m.threadStore.lookup (m.idx t) = some t :=
    (h.lookup _ t).mpr ⟨rfl, by rw [hpc]; trivial⟩
  have hne : m.threadStore.lookup (m.idx t) ≠ none := by simp [hself]
  refine ⟨hstore ▸ h.sound.remove hne, fun i w => ?_⟩
  rw [hstore, hidx, hpc', h.sound.lookup_remove hne]
  by_cases hi : i = m.idx t
  · rw [hi, update_self]
    refine iff_of_false nofun fun ⟨hw, hlives⟩ => ?_
    by_cases hwt : w = t
    · simp [hwt, Lives] at hlives
    rw [update_of_ne hwt] at hlives
    have := (h.lookup _ w).mpr ⟨hw, hlives⟩
    exact hwt (Option.some.inj (this.symm.trans hself))
  · rw [update_of_ne hi, h.lookup]
    by_cases hwt : w = t
    · exact iff_of_false (fun hw => hi (hwt ▸ hw.1).symm) fun hw => hi (hwt ▸ hw.1).symm
    · rw [update_of_ne hwt]

/-- **Every step keeps the store.** -/
theorem Stored.step {a : Action τ V} (h : Stored m) (hs : m.step a = some m') : Stored m' := by
  cases step_moved hs with
  | created hpc hm' => exact hm' ▸ h.enroll hpc
  | exited hpc hp hgoes =>
    refine h.goes (by rw [hpc]; trivial) ?_ hgoes
    rcases hp with rfl | ⟨rfl, -⟩
    · trivial
    · trivial
  | worked hpc hp hgoes => exact h.goes hpc.lives hp.lives hgoes
  | finished hpc hgoes => exact h.goes (by rw [hpc]; trivial) (by trivial) hgoes
  | idle hstore hidx hpc => exact ⟨hstore ▸ h.sound, fun i u => by rw [hstore, hidx, hpc, h.lookup]⟩
  | destroyed hpc hstore hidx hpc' => exact h.remove hpc hstore hidx hpc'

theorem stored_init (t : τ) : Stored (init t : Threads τ V) :=
  Stored.enroll ⟨ManagedArray.sound_init 1, fun i u => by
    rw [ManagedArray.lookup_init]
    exact iff_of_false nofun And.right⟩ rfl

theorem stored_run {t₀ : τ} {as : List (Action τ V)} (hrun : run step (init t₀) as = some m) :
    Stored m :=
  invariant Stored.step (stored_init t₀) hrun

end Threads

end Kos

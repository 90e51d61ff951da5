import Mathlib.Data.List.Basic
import KosKernel.Machine.Memory

/-!
# Runtime/Blocking — how a thread blocks, and who wakes it up

`BlockingInfo`, `TimeoutInfo`, `TimeoutBlockingInfo`, `Timeout` and `BlockingQueue` of
`runtime/BlockingSync.h`, with `Thread::block`, `unblock` and `cancel`.  A thread that blocks sets
its state from `Running` to `Blocked` and links itself into a blocking queue, the timeout queue, or
both. Three calls compete for it: `BlockingQueue::resume`, `Timeout::checkExpiry` and
`Thread::cancel`. Whoever takes the state away from `Blocked` has won; it takes the thread out of
the queues that it is still in, under other locks than the one it has won under, and then calls
`Scheduler::resume`.

A section under a lock is one step.  What a call has still to do for a thread that it has won is an
entry of `calls`, and the steps of the entries interleave in any way.
-/

namespace Kos

open Function

/-- `Thread::State`. -/
inductive ThreadState
  | running
  | blocked
  | cancelled
  | finishing
  deriving DecidableEq

/-- The `UnblockInfo` that a thread blocks with: a `BlockingInfo`, a `TimeoutInfo` or a
`TimeoutBlockingInfo`. -/
inductive Wait (κ : Type)
  | blocking (k : κ)
  | timeout (key : ℕ)
  | timeoutBlocking (k : κ) (key : ℕ)

namespace Wait

variable {κ : Type}

def queue : Wait κ → Option κ
  | .blocking k | .timeoutBlocking k _ => some k
  | .timeout _ => none

def key : Wait κ → Option ℕ
  | .timeout key | .timeoutBlocking _ key => some key
  | .blocking _ => none

end Wait

/-- The fields of an `UnblockInfo`: the blocking queue, the iterator `titer`, and `timedOut`. -/
structure UnblockInfo (κ : Type) where
  queue : Option κ
  titer : Option ℕ
  timedOut : Bool

/-- An entry of `Timeout::queue`; `id` is what iterators point to. -/
structure Timer (τ : Type) where
  id : ℕ
  key : ℕ
  thread : τ

/-- The three calls that can end a blocking episode. -/
inductive Winner
  | resume
  | expiry
  | cancel
  deriving DecidableEq

/-- What a call does next for a thread it has won: `cancelTimeout`, the two steps of
`cancelBlocking`, and `Scheduler::resume`. -/
inductive Stage
  | cancelTimeout
  | timedOut
  | unlink
  | wake
  deriving DecidableEq

/-- The stage after this one; `resume` has unlinked the thread already. -/
def Winner.next : Winner → Stage → Stage
  | .resume, .cancelTimeout => .wake
  | _, .cancelTimeout => .timedOut
  | _, .timedOut => .unlink
  | _, .unlink => .wake
  | _, .wake => .wake

/-- A thread that a call has won, and what the call does next. -/
structure Claim (τ : Type) where
  thread : τ
  winner : Winner
  stage : Stage
  deriving DecidableEq

/-- Where a thread is: running, in `suspend`, made ready by `Scheduler::resume`, or terminated. -/
inductive Where
  | out
  | suspended
  | ready
  | gone
  deriving DecidableEq

/-- What happens to a thread. -/
inductive Event
  | start
  | won (w : Winner)
  | woken
  /-- the result of `suspend`, if it has one -/
  | returned (r : Option Bool)
  | terminated
  deriving DecidableEq

/-- The threads, their queues, and the claims on them. -/
structure Blocking (κ τ : Type) where
  state : τ → ThreadState
  pc : τ → Where
  info : τ → UnblockInfo κ
  queue : κ → List τ
  timers : List (Timer τ)
  fresh : ℕ
  calls : List (Claim τ)
  log : τ → List Event

namespace Blocking

variable {κ τ : Type} [DecidableEq κ] [DecidableEq τ]

inductive Action (κ τ : Type)
  | suspend (t : τ) (w : Wait κ)
  | resume (k : κ)
  | checkExpiry (now : ℕ)
  | cancel (t : τ)
  | advance (c : Claim τ)
  | dispatch (t : τ)
  | terminate (t : τ)

instance (b : Blocking κ τ) (c : Claim τ) : Decidable (c ∈ b.calls) := inferInstance

def init : Blocking κ τ :=
  ⟨fun _ => .running, fun _ => .out, fun _ => ⟨none, none, false⟩, fun _ => [], [], 0, [],
    fun _ => []⟩

section

variable (b : Blocking κ τ)

def note (t : τ) (e : Event) : τ → List Event :=
  update b.log t (b.log t ++ [e])

def setState (t : τ) (s : ThreadState) : Blocking κ τ :=
  { b with state := update b.state t s }

/-! ## Blocking -/

/-- `insert` of a `multimap`: behind the entries with the same key. -/
def insertTimer (e : Timer τ) (l : List (Timer τ)) : List (Timer τ) :=
  l.takeWhile (·.key ≤ e.key) ++ e :: l.dropWhile (·.key ≤ e.key)

/-- `push_back`, if the thread waits in a queue. -/
def link (t : τ) : Option κ → κ → List τ
  | some k => update b.queue k (b.queue k ++ [t])
  | none => b.queue

/-- The sections of the three `suspend`; a thread that is not `Running` does not block. -/
def suspend (t : τ) (w : Wait κ) : Blocking κ τ :=
  if b.state t = .running then
    { b with
      state := update b.state t .blocked
      pc := update b.pc t .suspended
      info := update b.info t ⟨w.queue, w.key.map fun _ => b.fresh, false⟩
      queue := b.link t w.queue
      timers := (w.key.map fun key => insertTimer ⟨b.fresh, key, t⟩ b.timers).getD b.timers
      fresh := b.fresh + 1
      log := b.note t .start }
  else b

/-- What `BlockingQueue::block` waits with: `limit` is no timeout, and with zero it does not
wait. -/
def waitFor (k : κ) (timeout : ℕ) : Option (Wait κ) :=
  if timeout = limit then some (.blocking k)
  else if timeout > 0 then some (.timeoutBlocking k timeout)
  else none

/-- `BlockingQueue::block`: whether the thread waits now; else `block` returns false at once. -/
def block (t : τ) (k : κ) (timeout : ℕ) : Bool × Blocking κ τ :=
  match waitFor k timeout with
  | none => (false, b)
  | some w => (decide (b.state t = .running), b.suspend t w)

/-! ## Winning -/

/-- The scan of `BlockingQueue::resume`: the first thread of the queue that is still `Blocked`. -/
def firstBlocked (k : κ) : Option τ := (b.queue k).find? (b.state · = .blocked)

/-- The call has won the thread. -/
def claim (t : τ) (s : ThreadState) (w : Winner) (stage : Stage) : Blocking κ τ :=
  { b with
    state := update b.state t s
    calls := b.calls ++ [⟨t, w, stage⟩]
    log := b.note t (.won w) }

/-- The section of `BlockingQueue::resume` for the thread that the scan finds. -/
def resumeThread (k : κ) (t : τ) : Blocking κ τ :=
  { b.claim t .running .resume .cancelTimeout with
    queue := update b.queue k ((b.queue k).erase t) }

/-- `BlockingQueue::resume`, up to the release of the lock. -/
def resume (k : κ) : Option τ × Blocking κ τ :=
  match b.firstBlocked k with
  | none => (none, b)
  | some t => (some t, b.resumeThread k t)

/-- `erase` of an iterator. -/
def eraseTimer (n : ℕ) : List (Timer τ) := b.timers.filter (·.id ≠ n)

/-- `unblock` and `erase` for an entry of the timeout queue. -/
def expire (e : Timer τ) : Blocking κ τ :=
  if b.state e.thread = .blocked then
    { b.claim e.thread .running .expiry .timedOut with timers := b.eraseTimer e.id }
  else b

end

/-- The loop of `Timeout::checkExpiry`, over the entries from the iterator on. -/
def checkLoop (now : ℕ) : List (Timer τ) → Blocking κ τ → Blocking κ τ
  | [], b => b
  | e :: es, b => if e.key ≤ now then checkLoop now es (b.expire e) else b

variable (b : Blocking κ τ)

/-- `Timeout::checkExpiry`, up to the release of the lock. -/
def checkExpiry (now : ℕ) : Blocking κ τ := checkLoop now b.timers b

/-- The exchange of `Thread::cancel`. -/
def cancel (b : Blocking κ τ) (t : τ) : Blocking κ τ :=
  if b.state t = .blocked then b.claim t .cancelled .cancel .cancelTimeout
  else b.setState t .cancelled

/-! ## After winning -/

/-- The claim goes on to its next stage. -/
def proceed (c : Claim τ) : List (Claim τ) :=
  b.calls.erase c ++ [{ c with stage := c.winner.next c.stage }]

/-- `cancelBlocking` of a `BlockingInfo` sets `timedOut`. -/
def markTimedOut (i : UnblockInfo κ) : UnblockInfo κ :=
  { i with timedOut := i.timedOut || i.queue.isSome }

/-- `EmbeddedList::remove`. -/
def unlink (t : τ) : Option κ → κ → List τ
  | some k => update b.queue k ((b.queue k).erase t)
  | none => b.queue

/-- One step of a call for the thread it has won. -/
def advance (c : Claim τ) : Blocking κ τ :=
  match c.stage with
  | .cancelTimeout =>
    { b with
      calls := b.proceed c
      timers := ((b.info c.thread).titer.map b.eraseTimer).getD b.timers }
  | .timedOut =>
    { b with
      calls := b.proceed c
      info := update b.info c.thread (markTimedOut (b.info c.thread)) }
  | .unlink => { b with calls := b.proceed c, queue := b.unlink c.thread (b.info c.thread).queue }
  | .wake =>
    { b with
      calls := b.calls.erase c
      pc := update b.pc c.thread .ready
      log := b.note c.thread .woken }

@[simp] theorem advance_state (c : Claim τ) : (b.advance c).state = b.state := by
  rw [advance]
  split <;> rfl

/-! ## Going on -/

/-- The result of `suspend`; a `TimeoutInfo` has none. -/
def result (t : τ) : Option Bool :=
  (b.info t).queue.map fun _ => !(b.info t).timedOut

/-- `Scheduler::terminate`, or the check for `Cancelled` in `switchThread`. -/
def terminate (t : τ) : Blocking κ τ :=
  { b.setState t .finishing with
    pc := update b.pc t .gone
    log := b.note t .terminated }

/-- The thread is dispatched again: `switchThread` terminates it if it has been cancelled, else
`suspend` returns. -/
def dispatch (t : τ) : Blocking κ τ :=
  if b.state t = .cancelled then b.terminate t
  else
    { b with
      pc := update b.pc t .out
      log := b.note t (.returned (b.result t)) }

def step : Action κ τ → Option (Blocking κ τ)
  | .suspend t w => if b.pc t = .out then some (b.suspend t w) else none
  | .resume k => some (b.resume k).2
  | .checkExpiry now => some (b.checkExpiry now)
  | .cancel t => some (b.cancel t)
  | .advance c => if c ∈ b.calls then some (b.advance c) else none
  | .dispatch t => if b.pc t = .ready then some (b.dispatch t) else none
  | .terminate t => if b.pc t = .out then some (b.terminate t) else none

end Blocking

end Kos

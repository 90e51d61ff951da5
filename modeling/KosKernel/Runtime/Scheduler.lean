import Mathlib.Data.Fintype.Basic
import KosKernel.Runtime.Blocking

/-!
# Runtime/Scheduler — one thread hands its core to the next

`Scheduler` of `runtime/Scheduler.cc` on every core, with `Runtime::postResume` of `RuntimeImpl.h`
and what it needs of `Process`.  A core that runs `switchThread` takes the next thread from its
ready queue, leaves the stack of the old one, and cleans up after it on the stack of the new one.
The steps of the cores, and of the threads that wake up or cancel others, interleave; each access to
a ready queue, to a `threadStore` or to the state word of a thread is one step.

A suspending thread keeps a lock until `unlock`, and whoever wakes it needs that lock before it
calls `Scheduler::resume`.  `Process::exec` and `Thread::start` are one step: the kernel thread that
executes a file is back in its own address space.
-/

namespace Kos

open Function Blocking

/-- The number of ready queues, and the priority of an idle thread. -/
abbrev maxPriority : ℕ := 3
def idlePriority : Fin maxPriority := 2

/-- What is set up before a thread is started: `affinity` is what `setAffinity` was called with. -/
structure Setup (κ τ : Type) where
  idle : κ → τ
  boot : κ → τ
  partner : κ → κ
  priority : τ → Fin maxPriority
  affinity : τ → Option κ
  affinityMask : τ → ℕ
  idle_inj : ∀ c d, idle c = idle d → c = d
  boot_inj : ∀ c d, boot c = boot d → c = d
  idle_ne_boot : ∀ c d, idle c ≠ boot d
  idle_priority : ∀ c, priority (idle c) = idlePriority
  idle_affinity : ∀ c, affinity (idle c) = some c
  idle_mask : ∀ c, affinityMask (idle c) = 0

/-- Two cores: the threads 0 and 1 boot them, 2 and 3 idle, and the others may run anywhere. -/
def Setup.twoCores : Setup (Fin 2) (Fin 8) where
  idle c := if c = 0 then 2 else 3
  boot c := if c = 0 then 0 else 1
  partner c := c + 1
  priority t := if t = 2 ∨ t = 3 then idlePriority else 1
  affinity t := if t = 0 ∨ t = 2 then some 0 else if t = 1 ∨ t = 3 then some 1 else none
  affinityMask _ := 0
  idle_inj := by decide
  boot_inj := by decide
  idle_ne_boot := by decide
  idle_priority := by decide
  idle_affinity := by decide
  idle_mask := by decide

/-- Where a core is in `switchThread`; `prev` is the thread that it has left. -/
inductive SwitchPc (κ τ π : Type)
  /-- outside `switchThread` -/
  | running
  | picking (target : Option κ)
  /-- before `nextScheduler` is set -/
  | picked (target : Option κ) (next : τ)
  /-- before `unlock` -/
  | chosen (target : Option κ) (next : τ)
  /-- before `stackSwitch` -/
  | unlocked (target : Option κ) (next : τ)
  /-- before `postSwitch` -/
  | switched (target : Option κ) (prev : τ)
  /-- before `postResume` reads the state -/
  | resumed (prev : τ)
  /-- the state was `Finishing` -/
  | dying (prev : τ)
  /-- before `clearUserPaging` -/
  | clearing (prev : τ) (p : π)
  /-- before `nextAS.enter`, and the process to be deleted after it -/
  | leaving (prev : τ) (p : Option π)
  | deleting (prev : τ) (p : π)
  /-- before `Thread::destroy` -/
  | freeing (prev : τ)
  /-- the state was not `Finishing` -/
  | living (prev : τ)
  /-- before `nextAS.enter` -/
  | entering
  /-- before `ctx.restore` -/
  | restoring
  /-- before the check for `Cancelled` -/
  | checking
  deriving DecidableEq

/-- The cores, their schedulers and their threads; the address space `none` is that of the kernel.
`woken` are the threads for which a call of `Scheduler::resume` is due.  `sp` and `ctx` say that the
stack pointer and the `MachContext` of a thread are saved, `invoked` that it has run before.  What
is kept for the statements: the threads that have become `Finishing` (`ended`), that `postResume`
has seen so (`seen`) and that `cancel` was called for, the calls of `Process::destroyThread` and
`Thread::destroy`, the core that has torn down a process, and whether a thread was dispatched or its
context restored before it was saved (`early`). -/
structure Scheduling (κ τ π : Type) where
  readyQueue : κ → Fin maxPriority → List τ
  readyCount : κ → ℕ
  currThread : κ → τ
  currAS : κ → Option π
  pc : κ → SwitchPc κ τ π
  state : τ → ThreadState
  nextScheduler : τ → Option κ
  memctx : τ → Option π
  locked : τ → Bool
  sp : τ → Bool
  ctx : τ → Bool
  invoked : τ → Bool
  born : τ → Bool
  woken : List τ
  used : π → Bool
  threadStore : π → List τ
  ended : τ → Bool
  seen : τ → Bool
  cancelled : τ → Bool
  removed : τ → ℕ
  destroyed : τ → ℕ
  torn : π → Option κ
  deleted : π → Bool
  early : Bool
  failed : Bool

namespace Scheduling

variable {κ τ π : Type} [DecidableEq κ]

inductive Action (κ τ π : Type)
  /-- `preempt`, by an interrupt or from `yield`, up to `switchThread` -/
  | preempt (c : κ)
  | suspend (c : κ)
  | terminate (c : κ)
  /-- `Process::createThread`, or `Thread::create` and `start` in the kernel -/
  | create (c : κ) (t : τ)
  | exec (c : κ) (p : π) (t : τ)
  | unblock (c : κ) (t : τ)
  | cancel (c : κ) (t : τ)
  | resume (c : κ) (t : τ)
  /-- the next step of `switchThread` -/
  | advance (c : κ)

/-- Some steps of the switch of one core. -/
def advances (n : ℕ) (c : κ) : List (Action κ τ π) := List.replicate n (.advance c)

/-- Every core runs its boot thread, and its idle thread is ready. -/
def init [DecidableEq τ] [Fintype κ] (cfg : Setup κ τ) : Scheduling κ τ π where
  readyQueue c p := if p = idlePriority then [cfg.idle c] else []
  readyCount _ := 1
  currThread := cfg.boot
  currAS _ := none
  pc _ := .running
  state _ := .running
  nextScheduler := cfg.affinity
  memctx _ := none
  locked _ := false
  sp _ := true
  ctx _ := true
  invoked t := decide (∃ c, t = cfg.boot c)
  born t := decide (∃ c, t = cfg.boot c ∨ t = cfg.idle c)
  woken := []
  used _ := false
  threadStore _ := []
  ended _ := false
  seen _ := false
  cancelled _ := false
  removed _ := 0
  destroyed _ := 0
  torn _ := none
  deleted _ := false
  early := false
  failed := false

variable (m : Scheduling κ τ π)

def go (c : κ) (pc : SwitchPc κ τ π) : Scheduling κ τ π :=
  { m with pc := update m.pc c pc }

@[simp] theorem go_pc (c d : κ) (pc : SwitchPc κ τ π) :
    (m.go c pc).pc d = if d = c then pc else m.pc d := update_apply ..

@[simp] theorem go_currThread (c : κ) (pc : SwitchPc κ τ π) :
    (m.go c pc).currThread = m.currThread := rfl

@[simp] theorem go_readyQueue (c : κ) (pc : SwitchPc κ τ π) :
    (m.go c pc).readyQueue = m.readyQueue := rfl

/-! ## The schedulers -/

/-- The scan of `switchThread` over the ready queues below `bound`. -/
def findReady (q : Fin maxPriority → List τ) (bound : ℕ) : Option (Fin maxPriority × τ) :=
  (List.finRange maxPriority).findSome? fun i : Fin maxPriority =>
    if (i : ℕ) < bound then (q i).head?.map (i, ·) else none

/-- The bound of the scan. -/
def bound (target : Option κ) (c : κ) : ℕ := if target = some c then idlePriority else maxPriority

def setQueue (c : κ) (i : Fin maxPriority) (l : List τ) : κ → Fin maxPriority → List τ :=
  update m.readyQueue c (update (m.readyQueue c) i l)

/-- The section of `switchThread`; without a successor the current thread goes on. -/
def pick (c : κ) (target : Option κ) : Scheduling κ τ π :=
  match findReady (m.readyQueue c) (bound target c) with
  | none => if target = none then { m with failed := true } else m.go c .running
  | some (i, next) =>
    { m.go c (.picked target next) with
      readyQueue := m.setQueue c i (m.readyQueue c i).tail
      readyCount := update m.readyCount c (m.readyCount c - 1) }

variable (cfg : Setup κ τ) (m : Scheduling κ τ π)

def enqueue (c : κ) (t : τ) : Scheduling κ τ π :=
  { m with
    readyQueue := m.setQueue c (cfg.priority t) (m.readyQueue c (cfg.priority t) ++ [t])
    readyCount := update m.readyCount c (m.readyCount c + 1) }

/-- `Scheduler::resume`, called on the core `c`. -/
def resume (c : κ) (t : τ) : Scheduling κ τ π :=
  m.enqueue cfg ((m.nextScheduler t).getD c) t

@[simp] theorem resume_pc (c : κ) (t : τ) : (m.resume cfg c t).pc = m.pc := rfl

@[simp] theorem resume_currThread (c : κ) (t : τ) :
    (m.resume cfg c t).currThread = m.currThread := rfl

variable [DecidableEq τ] [DecidableEq π]

/-- `getAffinity`. -/
def getAffinity (t : τ) : Option κ :=
  if (cfg.affinity t).isSome then m.nextScheduler t else none

/-- The target of `preempt`. -/
def target (c : κ) : κ :=
  let t := m.currThread c
  let affine := if cfg.affinityMask t = 0 then m.getAffinity cfg t else none
  affine.getD (if m.readyCount (cfg.partner c) + 2 < m.readyCount c then cfg.partner c else c)

/-! ## The switch -/

/-- `stackSwitch`: the stack pointer of the old thread is saved, that of the new one loaded. -/
def stackSwitch (c : κ) (target : Option κ) (next : τ) : Scheduling κ τ π :=
  let sp := update m.sp (m.currThread c) true
  { m.go c (.switched target (m.currThread c)) with
    currThread := update m.currThread c next
    memctx := update m.memctx (m.currThread c) (m.currAS c)
    early := m.early || !(sp next && (m.ctx next || (m.memctx next).isNone))
    sp := update sp next false }

def postSwitch (c : κ) (target : Option κ) (prev : τ) : Scheduling κ τ π :=
  match target with
  | none => m.go c (.resumed prev)
  | some _ => (m.resume cfg c prev).go c (.resumed prev)

variable (m : Scheduling κ τ π)

/-- `destroyThread`, in a user address space; `remove` asserts that the index is valid. -/
def destroyThread (c : κ) (prev : τ) : Scheduling κ τ π :=
  match m.currAS c with
  | none => m.go c (.leaving prev none)
  | some p =>
    let store := (m.threadStore p).erase prev
    { m.go c (if store = [] then .clearing prev p else .leaving prev none) with
      threadStore := update m.threadStore p store
      removed := update m.removed prev (m.removed prev + 1)
      failed := m.failed || decide (prev ∉ m.threadStore p) }

/-- `nextAS.enter`, for the address space of the thread that is now running. -/
def enter (c : κ) : Scheduling κ τ π :=
  { m with currAS := update m.currAS c (m.memctx (m.currThread c)) }

/-- `Thread::destroy`, with its assertion. -/
def destroy (c : κ) (prev : τ) : Scheduling κ τ π :=
  { m.go c .restoring with
    destroyed := update m.destroyed prev (m.destroyed prev + 1)
    failed := m.failed || decide (m.state prev ≠ .finishing) }

/-- `ctx.restore`.  A thread that has not run before goes on in `invokeThread`, without a check. -/
def restore (c : κ) : Scheduling κ τ π :=
  let t := m.currThread c
  { m.go c (if m.invoked t then .checking else .running) with
    early := m.early || ((m.currAS c).isSome && !m.ctx t)
    ctx := update m.ctx t false
    invoked := update m.invoked t true }

/-- The thread of the core ends. -/
def finish (c : κ) : Scheduling κ τ π :=
  { m.go c (.picking none) with
    state := update m.state (m.currThread c) .finishing
    ended := update m.ended (m.currThread c) true }

variable (m : Scheduling κ τ π)

/-- One step of `switchThread`, by where the core is. -/
def advance (c : κ) : Option (Scheduling κ τ π) :=
  match m.pc c with
  | .running => none
  | .picking target => some (m.pick c target)
  | .picked target next =>
    some { m.go c (.chosen target next) with
      nextScheduler := update m.nextScheduler (m.currThread c) (some (target.getD c)) }
  | .chosen target next =>
    some { m.go c (.unlocked target next) with locked := update m.locked (m.currThread c) false }
  | .unlocked target next => some (m.stackSwitch c target next)
  | .switched target prev => some (m.postSwitch cfg c target prev)
  | .resumed prev =>
    some (if m.state prev = .finishing then
      { m.go c (.dying prev) with seen := update m.seen prev true } else m.go c (.living prev))
  | .dying prev => some (m.destroyThread c prev)
  | .clearing prev p =>
    some { m.go c (.leaving prev (some p)) with torn := update m.torn p (some c) }
  | .leaving prev p => some ((m.enter c).go c (p.elim (.freeing prev) (.deleting prev)))
  | .deleting prev p => some { m.go c (.freeing prev) with deleted := update m.deleted p true }
  | .freeing prev => some (m.destroy c prev)
  | .living prev => some { m.go c .entering with ctx := update m.ctx prev true }
  | .entering => some ((m.enter c).go c .restoring)
  | .restoring => some (m.restore c)
  | .checking => some (if m.state (m.currThread c) = .cancelled then m.finish c
      else m.go c .running)

/-! ## The system -/

/-- A thread of the address space `as` is created and started on the core `c`. -/
def create (c : κ) (t : τ) (as : Option π) : Scheduling κ τ π :=
  { m.resume cfg c t with
    born := update m.born t true
    memctx := update m.memctx t as
    threadStore :=
      (as.map fun p => update m.threadStore p (m.threadStore p ++ [t])).getD m.threadStore }

/-- The exchange of `Thread::cancel`. -/
def cancel (t : τ) : Scheduling κ τ π :=
  { m with
    state := update m.state t .cancelled
    cancelled := update m.cancelled t true
    woken := if m.state t = .blocked then t :: m.woken else m.woken }

/-- `cancel` may be called for a thread: it exists, and is no idle thread. -/
def Cancellable [Fintype κ] (cfg : Setup κ τ) (m : Scheduling κ τ π) (t : τ) : Prop :=
  m.born t = true ∧ m.destroyed t = 0 ∧ m.removed t = 0 ∧ ∀ c, t ≠ cfg.idle c

instance [Fintype κ] (cfg : Setup κ τ) (m : Scheduling κ τ π) (t : τ) :
    Decidable (m.Cancellable cfg t) :=
  inferInstanceAs (Decidable (_ ∧ _))

/-- What a running thread does, and the steps of the switches. -/
def step [Fintype κ] (cfg : Setup κ τ) (m : Scheduling κ τ π) :
    Action κ τ π → Option (Scheduling κ τ π)
  | .advance c => m.advance cfg c
  | .preempt c => if m.pc c = .running then some (m.go c (.picking (some (m.target cfg c))))
      else none
  | .suspend c =>
    let t := m.currThread c
    if m.pc c = .running ∧ t ≠ cfg.idle c then
      some (if m.state t = .running then
        { m.go c (.picking none) with
          state := update m.state t .blocked
          locked := update m.locked t true }
      else m)
    else none
  | .terminate c => if m.pc c = .running ∧ m.currThread c ≠ cfg.idle c then some (m.finish c)
      else none
  | .create c t =>
    if m.pc c = .running ∧ m.born t = false then some (m.create cfg c t (m.currAS c)) else none
  | .exec c p t =>
    if m.pc c = .running ∧ m.currAS c = none ∧ m.born t = false ∧ m.used p = false then
      some { m.create cfg c t (some p) with used := update m.used p true }
    else none
  | .unblock c t =>
    if m.pc c = .running ∧ m.state t = .blocked ∧ m.locked t = false then
      some { m with state := update m.state t .running, woken := t :: m.woken }
    else none
  | .cancel c t =>
    if m.pc c = .running ∧ m.currThread c ≠ t ∧ m.Cancellable cfg t then some (m.cancel t) else none
  | .resume c t =>
    if m.pc c = .running ∧ t ∈ m.woken ∧ m.locked t = false then
      some { m.resume cfg c t with woken := m.woken.erase t }
    else none

end Scheduling

end Kos

import KosKernel.Lib.Runs
import Mathlib.Tactic.Ring

/-!
# Gdb/Turns — one core at a time talks to the debugger

`handle_exception` of `gdb/Gdb.cc`.  A core that stops takes a number from `tcounter`, waits until
`serving` shows it, and passes the turn on by `++serving`.  A core that reports an exception keeps
its number into the loop that follows; a core that was stopped by another one takes a number there.

`Ok` says for every program point which numbers a core can hold there, and `Tickets` that the
numbers from `serving` up to `tcounter` are each held once.  A core gives its number up only by
`++serving` (`turn_taking`): the one other way out of the loop is `allstop = false`, and nobody but
the core whose turn it is clears `allstop`.
-/

namespace Kos

open Function Runs

namespace Gdb

/-! ## The code -/

/-- `APIC::StopIPI`. -/
def stopIPI : ℤ := 0xef

/-- `GdbCpu::state`. -/
inductive CpuState
  | unknown
  | stopped
  | running
  deriving DecidableEq

/-- `vCont.action`, if it is not zero: `'c'` or `'s'`. -/
inductive VAction
  | cont
  | step
  deriving DecidableEq

/-- The program points of `handle_exception`.  The part that takes a number and waits for it occurs
twice: to report an exception, and in the loop under `allstop` (`loop`). -/
inductive TurnPc (ι : Type)
  /-- outside `handle_exception` -/
  | resumed
  /-- `lock.acquire()` -/
  | acquire (loop : Bool)
  /-- `serving - getCPU().ticket > 0` -/
  | test (loop : Bool)
  /-- `getCPU().ticket = tcounter` -/
  | take (loop : Bool)
  /-- `++tcounter` -/
  | bump (loop : Bool)
  /-- `lock.release()` -/
  | release (loop : Bool)
  /-- `while (getCPU().ticket != serving)` -/
  | wait (loop : Bool)
  /-- `allstop = true` -/
  | raise
  /-- the `for` over the processors that are left -/
  | stop (rest : List ι)
  /-- the IPI is sent; `while (cpus[i].state != GdbCpu::Stopped)` -/
  | await (i : ι) (rest : List ι)
  /-- the stop reply, and `vCont.action = 0` -/
  | report
  /-- `do handlePacket(sigval); while (vCont.action == 0)` -/
  | packets
  /-- `while (allstop)` -/
  | check
  /-- `if (vCont.pending())` -/
  | serve
  /-- `++serving`, the load -/
  | load (leave : Bool)
  /-- `++serving`, the store of `value` -/
  | store (value : ℤ) (leave : Bool)
  /-- `getCPU().state = GdbCpu::Running` -/
  | leave
  deriving DecidableEq

/-- What does not change: the processors in the order of their index, and their thread ids. -/
structure Cores (ι : Type) where
  cpus : List ι
  tid : ι → ℤ

/-- The shared variables, each core's `GdbCpu` and program point, and — for the statements only —
`turn`: the core has seen its number and not yet passed the turn on. -/
structure Session (ι : Type) where
  pc : ι → TurnPc ι
  state : ι → CpuState
  ticket : ι → ℤ
  turn : ι → Bool
  locked : Bool
  tcounter : ℤ
  serving : ℤ
  allstop : Bool
  action : Option VAction
  tid : ℤ
  hookBreak : Bool

inductive TurnAction (ι : Type)
  /-- `startGdbCpu` -/
  | start (c : ι)
  /-- an exception or an IPI -/
  | enter (c : ι) (vec : ℤ)
  /-- the next statement of a core in `handle_exception` -/
  | advance (c : ι)
  /-- `handlePacket`: a `vCont` packet, or another one, which may change
  `_Unwind_DebugHook_break` -/
  | packet (c : ι) (vCont : Option (VAction × ℤ)) (hookBreak : Bool)
  deriving DecidableEq

namespace Session

variable {ι : Type} [DecidableEq ι]

def init : Session ι where
  pc := fun _ => .resumed
  state := fun _ => .unknown
  ticket := fun _ => 0
  turn := fun _ => false
  locked := false
  tcounter := 1
  serving := 1
  allstop := false
  action := none
  tid := 0
  hookBreak := false

def go (m : Session ι) (c : ι) (pc : TurnPc ι) : Session ι := { m with pc := update m.pc c pc }

/-- Signed overflow is undefined: an increment past the largest `int64_t` is no step. -/
def incr (x : ℤ) : Option ℤ := if x + 1 < 2 ^ 63 then some (x + 1) else none

/-- `vCont.pending()` on core `c`. -/
def pending (k : Cores ι) (m : Session ι) (c : ι) : Bool :=
  m.action.isSome && (m.tid ≤ 0 || m.tid == k.tid c)

/-- The branch for a pending `vCont`; a failed assertion is no step. -/
def resume (k : Cores ι) (m : Session ι) (c : ι) : Option (Session ι) :=
  match m.action with
  | some .step => if m.tid = k.tid c then some (m.go c (.load true)) else none
  -- whether `_Unwind_DebugHook_break` is set decides only about the thread's affinity
  | some .cont => if m.tid = -1 then some ({ m with allstop := false }.go c (.load true)) else none
  | none => some (m.go c (.load true))

/-- The next statement of a core. -/
def advance (k : Cores ι) (m : Session ι) (c : ι) : Option (Session ι) :=
  match m.pc c with
  | .resumed => none
  | .acquire loop => if m.locked then none else some ({ m with locked := true }.go c (.test loop))
  | .test loop => some (m.go c (if m.serving - m.ticket c > 0 then .take loop else .release loop))
  | .take loop =>
    some ({ m with ticket := update m.ticket c m.tcounter }.go c (.bump loop))
  | .bump loop => (incr m.tcounter).map fun t => { m with tcounter := t }.go c (.release loop)
  | .release loop => some ({ m with locked := false }.go c (.wait loop))
  | .wait loop =>
    if m.ticket c = m.serving then
      some ({ m with turn := update m.turn c true }.go c (if loop then .serve else .raise))
    else none
  | .raise => some ({ m with allstop := true }.go c (.stop k.cpus))
  | .stop [] => some (m.go c .report)
  | .stop (i :: rest) => some (m.go c (if m.state i = .running then .await i rest else .stop rest))
  | .await i rest => if m.state i = .stopped then some (m.go c (.stop rest)) else none
  | .report => some ({ m with action := none }.go c .packets)
  | .packets => none
  | .check => some (m.go c (if m.allstop then .acquire true else .leave))
  | .serve => if m.pending k c then m.resume k c else some (m.go c (.load false))
  | .load leave => (incr m.serving).map fun value => m.go c (.store value leave)
  | .store value leave =>
    some ({ m with serving := value, turn := update m.turn c false }.go c
      (if leave then .leave else .check))
  | .leave => some ({ m with state := update m.state c .running }.go c .resumed)

def step (k : Cores ι) (m : Session ι) : TurnAction ι → Option (Session ι)
  | .start c =>
    if m.pc c = .resumed then some { m with state := update m.state c .running } else none
  | .enter c vec =>
    if m.pc c = .resumed then
      some ({ m with state := update m.state c .stopped }.go c
        (if vec = stopIPI then .check else .acquire false))
    else none
  | .advance c => m.advance k c
  | .packet c vCont hookBreak =>
    if m.pc c = .packets then
      match vCont with
      | none => some { m with hookBreak }
      | some (action, tid) => some ({ m with hookBreak, action := some action, tid }.go c .check)
    else none

/-! ## Which number a core holds where -/

/-- The program points by what a core can hold there. -/
inductive Kind
  /-- no number -/
  | idle
  /-- a number that `tcounter` does not yet count -/
  | fresh
  /-- a number, and the turn may have come -/
  | queued
  /-- the turn -/
  | busy
  /-- the turn, and `allstop` is set -/
  | stopping
  /-- the loop, which is entered with the turn and without a number -/
  | looping
  /-- the turn, and the value to be stored to `serving` -/
  | storing (value : ℤ)

def kind : TurnPc ι → Kind
  | .resumed => .idle
  | .acquire loop => if loop then .looping else .idle
  | .test loop => if loop then .looping else .idle
  | .take _ => .idle
  | .bump _ => .fresh
  | .release _ => .queued
  | .wait _ => .queued
  | .raise => .busy
  | .stop _ => .stopping
  | .await _ _ => .stopping
  | .report => .stopping
  | .packets => .stopping
  | .check => .looping
  | .serve => .busy
  | .load _ => .busy
  | .store value _ => .storing value
  | .leave => .idle

/-- A core holds a number from the assignment to the end of the wait, and as long as it has the
turn. -/
def Holds (kind : Kind) (turn : Bool) : Prop :=
  turn = true ∨ match kind with
    | .fresh => True
    | .queued => True
    | _ => False

/-- Between `lock.acquire()` and `lock.release()`. -/
def InLock : TurnPc ι → Prop
  | .test _ => True
  | .take _ => True
  | .bump _ => True
  | .release _ => True
  | _ => False

/-- What is known of a core's number at each kind of program point. -/
def Ok (serving tcounter : ℤ) (allstop : Bool) (ticket : ℤ) (turn : Bool) : Kind → Prop
  | .idle => turn = false ∧ ticket < serving
  | .fresh => turn = false ∧ ticket = tcounter
  | .queued => (turn = true → ticket = serving) ∧ serving ≤ ticket ∧ ticket < tcounter
  | .busy => turn = true ∧ ticket = serving ∧ serving < tcounter
  | .stopping => turn = true ∧ ticket = serving ∧ serving < tcounter ∧ allstop = true
  | .looping => (turn = false ∧ ticket < serving) ∨
      (turn = true ∧ ticket = serving ∧ serving < tcounter ∧ allstop = true)
  | .storing value => turn = true ∧ ticket = serving ∧ serving < tcounter ∧ value = serving + 1

section Ok

variable {serving tcounter ticket : ℤ} {allstop turn : Bool} {d : Kind}

variable (h : Ok serving tcounter allstop ticket turn d)

include h

theorem Ok.of_turn (ht : turn = true) : ticket = serving ∧ serving < tcounter := by
  cases d with
  | idle => exact absurd (h.1.symm.trans ht) (by decide)
  | fresh => exact absurd (h.1.symm.trans ht) (by decide)
  | queued => have := h.1 ht; have := h.2; omega
  | busy => exact h.2
  | stopping => exact ⟨h.2.1, h.2.2.1⟩
  | looping =>
    rcases h with h | h
    · exact absurd (h.1.symm.trans ht) (by decide)
    · exact ⟨h.2.1, h.2.2.1⟩
  | storing value => exact ⟨h.2.1, h.2.2.1⟩

theorem Ok.lt (hh : Holds d turn) (hd : d ≠ .fresh) : ticket < tcounter := by
  rcases hh with ht | hq
  · have := h.of_turn ht
    omega
  · cases d with
    | fresh => exact absurd rfl hd
    | queued => exact h.2.2
    | idle | busy | stopping | looping | storing => exact hq.elim

/-- The others when a core passes the turn on. -/
theorem Ok.pass (hne : Holds d turn → ticket ≠ serving) :
    Ok (serving + 1) tcounter allstop ticket turn d := by
  have hturn : turn = true → False := fun ht => hne (Or.inl ht) (h.of_turn ht).1
  cases d with
  | idle => exact ⟨h.1, by have := h.2; omega⟩
  | fresh => exact h
  | queued =>
    have := hne (Or.inr trivial)
    have := h.2
    exact ⟨fun ht => (hturn ht).elim, by omega, by omega⟩
  | busy => exact (hturn h.1).elim
  | stopping => exact (hturn h.1).elim
  | looping =>
    rcases h with h | h
    · exact Or.inl ⟨h.1, by have := h.2; omega⟩
    · exact (hturn h.1).elim
  | storing value => exact (hturn h.1).elim

/-- The others when a core has taken a number. -/
theorem Ok.count (hd : d ≠ .fresh) : Ok serving (tcounter + 1) allstop ticket turn d := by
  cases d with
  | idle => exact h
  | fresh => exact absurd rfl hd
  | queued => exact ⟨h.1, h.2.1, by have := h.2.2; omega⟩
  | busy => exact ⟨h.1, h.2.1, by have := h.2.2; omega⟩
  | stopping => exact ⟨h.1, h.2.1, by have := h.2.2.1; omega, h.2.2.2⟩
  | looping => exact h.imp id fun h => ⟨h.1, h.2.1, by have := h.2.2.1; omega, h.2.2.2⟩
  | storing value => exact ⟨h.1, h.2.1, by have := h.2.2.1; omega, h.2.2.2⟩

/-- The others when a core writes `allstop`. -/
theorem Ok.setAllstop {v : Bool} (hv : turn = true → v = true) :
    Ok serving tcounter v ticket turn d := by
  cases d with
  | idle => exact h
  | fresh => exact h
  | queued => exact h
  | busy => exact h
  | stopping => exact ⟨h.1, h.2.1, h.2.2.1, hv h.1⟩
  | looping => exact h.imp id fun h => ⟨h.1, h.2.1, h.2.2.1, hv h.1⟩
  | storing value => exact h

end Ok

/-! ## Every number is held once -/

/-- The numbers from `serving` up to `tcounter` are held, and no number is held twice. -/
structure Tickets (pc : ι → TurnPc ι) (ticket : ι → ℤ) (turn : ι → Bool) (serving tcounter : ℤ) :
    Prop where
  le : serving ≤ tcounter
  inj : ∀ {c d}, Holds (kind (pc c)) (turn c) → Holds (kind (pc d)) (turn d) →
    ticket c = ticket d → c = d
  surj : ∀ n, serving ≤ n → n < tcounter → ∃ c, Holds (kind (pc c)) (turn c) ∧ ticket c = n

/-- The lock keeps the cores between `acquire` and `release` apart. -/
structure Locking (pc : ι → TurnPc ι) (locked : Bool) : Prop where
  held : ∀ {c}, InLock (pc c) → locked = true
  one : ∀ {c d}, InLock (pc c) → InLock (pc d) → c = d

/-- **The invariant of the stub.** -/
structure Turns (m : Session ι) : Prop where
  ok : ∀ c, Ok m.serving m.tcounter m.allstop (m.ticket c) (m.turn c) (kind (m.pc c))
  tickets : Tickets m.pc m.ticket m.turn m.serving m.tcounter
  locking : Locking m.pc m.locked

omit [DecidableEq ι] in
theorem turns_init : Turns (init : Session ι) where
  ok := fun _ => ⟨rfl, Int.zero_lt_one⟩
  tickets :=
    { le := le_rfl
      inj := fun h => absurd h (by simp [Holds, kind, init])
      surj := fun n h h' => by simp only [init] at h h'; omega }
  locking := ⟨fun h => h.elim, fun h => h.elim⟩

section Step

variable {pc : ι → TurnPc ι} {ticket : ι → ℤ} {turn : ι → Bool} {serving tcounter : ℤ}
  {locked : Bool} {c : ι} {pc' : TurnPc ι}

variable (h : Tickets pc ticket turn serving tcounter)

include h

/-- A core goes on and keeps what it holds. -/
theorem Tickets.go {turn' : Bool} (hh : Holds (kind pc') turn' ↔ Holds (kind (pc c)) (turn c)) :
    Tickets (update pc c pc') ticket (update turn c turn') serving tcounter := by
  have hiff : ∀ d, Holds (kind (update pc c pc' d)) (update turn c turn' d)
      ↔ Holds (kind (pc d)) (turn d) := by
    intro d
    by_cases hd : d = c
    · subst hd
      simpa using hh
    · rw [update_of_ne hd, update_of_ne hd]
  refine ⟨h.le, fun hc hd => h.inj ((hiff _).mp hc) ((hiff _).mp hd), fun n h1 h2 => ?_⟩
  obtain ⟨d, hd, hn⟩ := h.surj n h1 h2
  exact ⟨d, (hiff d).mpr hd, hn⟩

theorem Tickets.move (hh : Holds (kind pc') (turn c) ↔ Holds (kind (pc c)) (turn c)) :
    Tickets (update pc c pc') ticket turn serving tcounter := by
  have := h.go hh
  rwa [update_eq_self] at this

/-- A core is assigned the next number. -/
theorem Tickets.take (hno : ¬ Holds (kind (pc c)) (turn c))
    (hlt : ∀ d, d ≠ c → Holds (kind (pc d)) (turn d) → ticket d < tcounter) :
    Tickets (update pc c pc') (update ticket c tcounter) turn serving tcounter := by
  refine ⟨h.le, fun {d e} hd he hn => ?_, fun n h1 h2 => ?_⟩
  · by_cases hdc : d = c <;> by_cases hec : e = c
    · exact hdc.trans hec.symm
    · rw [update_of_ne hec] at he hn
      rw [hdc, update_self] at hn
      exact absurd (hlt e hec he) (by omega)
    · rw [update_of_ne hdc] at hd hn
      rw [hec, update_self] at hn
      exact absurd (hlt d hdc hd) (by omega)
    · rw [update_of_ne hdc] at hd hn
      rw [update_of_ne hec] at he hn
      exact h.inj hd he hn
  · obtain ⟨d, hd, hn⟩ := h.surj n h1 h2
    have hdc : d ≠ c := fun he => hno (he ▸ hd)
    exact ⟨d, by rwa [update_of_ne hdc], by rwa [update_of_ne hdc]⟩

/-- The number counts. -/
theorem Tickets.count (hc : ticket c = tcounter) (hh : Holds (kind (pc c)) (turn c))
    (hh' : Holds (kind pc') (turn c)) :
    Tickets (update pc c pc') ticket turn serving (tcounter + 1) := by
  have hgo : Tickets (update pc c pc') ticket turn serving tcounter :=
    h.move (iff_of_true hh' hh)
  refine ⟨by have := h.le; omega, hgo.inj, fun n h1 h2 => ?_⟩
  by_cases hlt : n < tcounter
  · exact hgo.surj n h1 hlt
  · obtain rfl : n = tcounter := by omega
    exact ⟨c, by rwa [update_self], hc⟩

/-- A core passes the turn on. -/
theorem Tickets.pass (hc : ticket c = serving) (hlt : serving < tcounter)
    (hno : ¬ Holds (kind pc') false) :
    Tickets (update pc c pc') ticket (update turn c false) (serving + 1) tcounter := by
  have hne : ∀ {d}, Holds (kind (update pc c pc' d)) (update turn c false d) → d ≠ c := by
    rintro d hd rfl
    rw [update_self, update_self] at hd
    exact hno hd
  have hold : ∀ {d}, Holds (kind (update pc c pc' d)) (update turn c false d) →
      Holds (kind (pc d)) (turn d) := by
    intro d hd
    have hdc := hne hd
    rwa [update_of_ne hdc, update_of_ne hdc] at hd
  refine ⟨hlt, fun hd he => h.inj (hold hd) (hold he), fun n h1 h2 => ?_⟩
  obtain ⟨d, hd, hn⟩ := h.surj n (by omega) h2
  have hdc : d ≠ c := by
    rintro rfl
    omega
  exact ⟨d, by rwa [update_of_ne hdc, update_of_ne hdc], hn⟩

omit h

/-- A core goes on outside the lock, or stays inside. -/
theorem Locking.go (h : Locking pc locked) (hin : InLock pc' → InLock (pc c)) :
    Locking (update pc c pc') locked := by
  have hold : ∀ {d}, InLock (update pc c pc' d) → InLock (pc d) := by
    intro d hd
    by_cases hdc : d = c
    · subst hdc
      rw [update_self] at hd
      exact hin hd
    · rwa [update_of_ne hdc] at hd
  exact ⟨fun hd => h.held (hold hd), fun hd he => h.one (hold hd) (hold he)⟩

theorem Locking.acquire (h : Locking pc false) : Locking (update pc c pc') true := by
  have heq : ∀ {d}, InLock (update pc c pc' d) → d = c := by
    intro d hd
    by_contra hdc
    rw [update_of_ne hdc] at hd
    exact Bool.false_ne_true (h.held hd)
  exact ⟨fun _ => rfl, fun hd he => (heq hd).trans (heq he).symm⟩

theorem Locking.release (h : Locking pc locked) (hin : InLock (pc c)) (hout : ¬ InLock pc') :
    Locking (update pc c pc') false := by
  have hno : ∀ d, ¬ InLock (update pc c pc' d) := by
    intro d hd
    by_cases hdc : d = c
    · rw [hdc, update_self] at hd
      exact hout hd
    · rw [update_of_ne hdc] at hd
      exact hdc (h.one hd hin)
  exact ⟨fun hd => absurd hd (hno _), fun hd => absurd hd (hno _)⟩

end Step

/-! ## Every step -/

variable {k : Cores ι} {m m' : Session ι} {c : ι} {pc' : TurnPc ι}

/-- A core holds a number. -/
def Held (m : Session ι) (c : ι) : Prop := Holds (kind (m.pc c)) (m.turn c)

theorem held_go : (m.go c pc').Held c ↔ Holds (kind pc') (m.turn c) := by
  rw [Held, show (m.go c pc').pc c = pc' from update_self ..]
  rfl

/-- From `m` to `m'` a core that holds a number keeps it, or has the turn and passes it on. -/
def Keeps (m m' : Session ι) (c : ι) : Prop :=
  m.Held c → (m'.Held c ∧ m'.ticket c = m.ticket c) ∨
    (m.turn c = true ∧ m'.turn c = false ∧ m'.serving = m.serving + 1)

/-- What every step does. -/
structure Next (m m' : Session ι) : Prop where
  turns : Turns m'
  keeps : ∀ c, Keeps m m' c

omit [DecidableEq ι] in
/-- No number depends on `state`, on `vCont` or on `_Unwind_DebugHook_break`. -/
theorem Next.congr {state : ι → CpuState} {action : Option VAction} {tid : ℤ} {hookBreak : Bool}
    (h : Next m m') : Next m { m' with state, action, tid, hookBreak } :=
  ⟨{ h.turns with }, h.keeps⟩

omit [DecidableEq ι] in
/-- Only one core has the turn. -/
theorem Turns.one (h : Turns m) {c d : ι} (hc : m.turn c = true) (hd : m.turn d = true) : c = d :=
  h.tickets.inj (Or.inl hc) (Or.inl hd) (((h.ok c).of_turn hc).1.trans ((h.ok d).of_turn hd).1.symm)

omit [DecidableEq ι] in
theorem inLock_of_fresh {pc : TurnPc ι} (h : kind pc = .fresh) : InLock pc := by
  cases pc with
  | bump => trivial
  | acquire loop => cases loop <;> cases h
  | test => trivial
  | _ => cases h

omit [DecidableEq ι] in
/-- While `c` is between `acquire` and `release`, no other core has a number that does not yet
count. -/
theorem Turns.not_fresh (h : Turns m) (hin : InLock (m.pc c)) {d : ι} (hdc : d ≠ c) :
    kind (m.pc d) ≠ .fresh :=
  fun hd => hdc (h.locking.one (inLock_of_fresh hd) hin)

/-- What is known of core `c` after its step, and of the others. -/
theorem ok_update {serving tcounter : ℤ} {allstop : Bool} {pc : ι → TurnPc ι} {ticket : ι → ℤ}
    {turn : ι → Bool} (hc : Ok serving tcounter allstop (ticket c) (turn c) (kind pc'))
    (hd : ∀ d, d ≠ c → Ok serving tcounter allstop (ticket d) (turn d) (kind (pc d))) (d : ι) :
    Ok serving tcounter allstop (ticket d) (turn d) (kind (update pc c pc' d)) := by
  by_cases hdc : d = c
  · subst hdc
    rwa [update_self]
  · rw [update_of_ne hdc]
    exact hd d hdc

/-- The other cores keep what they hold. -/
theorem keeps_update (hpc : m'.pc = update m.pc c pc')
    (hturn : ∀ d, d ≠ c → m'.turn d = m.turn d) (hticket : ∀ d, d ≠ c → m'.ticket d = m.ticket d)
    (hc : Keeps m m' c) (d : ι) : Keeps m m' d := by
  by_cases hdc : d = c
  · exact hdc ▸ hc
  · intro hd
    refine Or.inl ⟨?_, hticket d hdc⟩
    rwa [Held, hpc, update_of_ne hdc, hturn d hdc]

/-- A step that changes the program point, and perhaps the lock. -/
theorem Turns.move (h : Turns m) {locked : Bool}
    (hok : Ok m.serving m.tcounter m.allstop (m.ticket c) (m.turn c) (kind pc'))
    (hh : Holds (kind pc') (m.turn c) ↔ m.Held c) (hlock : Locking (update m.pc c pc') locked) :
    Next m ({ m with locked }.go c pc') where
  turns := ⟨ok_update hok fun d _ => h.ok d, h.tickets.move hh, hlock⟩
  keeps := keeps_update rfl (fun _ _ => rfl) (fun _ _ => rfl) fun hc =>
    Or.inl ⟨held_go.mpr (hh.mpr hc), rfl⟩

/-- A step between two program points of one kind. -/
theorem Turns.same (h : Turns m) {locked : Bool} (hk : kind pc' = kind (m.pc c))
    (hlock : Locking (update m.pc c pc') locked) : Next m ({ m with locked }.go c pc') :=
  h.move (hk ▸ h.ok c) (by rw [hk, Held]) hlock

/-- A core outside the lock goes on. -/
theorem Turns.outside (h : Turns m) (hin : ¬ InLock pc') : Locking (update m.pc c pc') m.locked :=
  h.locking.go fun h => absurd h hin

/-- A core that has no number goes on without one. -/
theorem Turns.idle (h : Turns m) (hidle : m.turn c = false ∧ m.ticket c < m.serving)
    (hc : ¬ m.Held c) (hk : kind pc' = .idle) (hin : InLock pc' → InLock (m.pc c)) :
    Next m (m.go c pc') := by
  refine h.move (hk ▸ hidle) (iff_of_false ?_ hc) (h.locking.go hin)
  rw [hk, hidle.1]
  simp [Holds]

/-- A core that has the turn goes on with it. -/
theorem Turns.busy (h : Turns m) (ht : m.turn c = true)
    (hok : Ok m.serving m.tcounter m.allstop (m.ticket c) (m.turn c) (kind pc'))
    (hin : InLock pc' → InLock (m.pc c)) : Next m (m.go c pc') :=
  h.move hok (iff_of_true (Or.inl ht) (Or.inl ht)) (h.locking.go hin)

variable {loop : Bool}

/-- `if (serving - getCPU().ticket > 0)`: the number of the report is kept, an old one is not. -/
theorem Turns.test (h : Turns m) (hpc : m.pc c = .test loop) :
    Next m (m.go c (if m.serving - m.ticket c > 0 then .take loop else .release loop)) := by
  have hok := h.ok c
  have hin : InLock (m.pc c) := by rw [hpc]; trivial
  rw [hpc] at hok
  have hor : (m.turn c = false ∧ m.ticket c < m.serving) ∨
      (m.turn c = true ∧ m.ticket c = m.serving ∧ m.serving < m.tcounter) := by
    cases loop with
    | false => exact Or.inl hok
    | true => exact hok.imp id fun h => ⟨h.1, h.2.1, h.2.2.1⟩
  rcases hor with hidle | ⟨ht, hc, hlt⟩
  · rw [if_pos (by omega)]
    refine h.idle hidle ?_ rfl fun _ => hin
    rw [Held, hpc, hidle.1]
    cases loop <;> simp [Holds, kind]
  · rw [if_neg (by omega)]
    exact h.busy ht ⟨fun _ => hc, hc.ge, hc.trans_lt hlt⟩ fun _ => hin

/-- `getCPU().ticket = tcounter`, under the lock. -/
theorem Turns.take (h : Turns m) (hpc : m.pc c = .take loop) :
    Next m ({ m with ticket := update m.ticket c m.tcounter }.go c (.bump loop)) := by
  have hok := h.ok c
  have hin : InLock (m.pc c) := by rw [hpc]; trivial
  have hno : ¬ m.Held c := by
    rw [hpc] at hok
    rw [Held, hpc, hok.1]
    simp [Holds, kind]
  rw [hpc] at hok
  refine ⟨⟨ok_update ⟨hok.1, update_self ..⟩ fun d hdc => ?_,
    h.tickets.take hno fun d hdc hd => (h.ok d).lt hd (h.not_fresh hin hdc),
    h.locking.go fun _ => hin⟩, ?_⟩
  · show Ok m.serving m.tcounter m.allstop (update m.ticket c m.tcounter d) _ _
    rw [update_of_ne hdc]
    exact h.ok d
  · exact keeps_update rfl (fun _ _ => rfl) (fun d hdc => update_of_ne hdc ..)
      fun hc => absurd hc hno

/-- `++tcounter`, under the lock. -/
theorem Turns.bump (h : Turns m) (hpc : m.pc c = .bump loop) :
    Next m ({ m with tcounter := m.tcounter + 1 }.go c (.release loop)) := by
  have hok := h.ok c
  have hin : InLock (m.pc c) := by rw [hpc]; trivial
  rw [hpc] at hok
  refine ⟨⟨ok_update ⟨fun ht => ?_, ?_, ?_⟩ fun d hdc => (h.ok d).count (h.not_fresh hin hdc),
    h.tickets.count hok.2 (hpc ▸ Or.inr trivial) (Or.inr trivial), h.locking.go fun _ => hin⟩, ?_⟩
  · exact absurd (hok.1.symm.trans ht) (by decide)
  · exact h.tickets.le.trans hok.2.ge
  · exact hok.2.trans_lt (Int.lt_add_one_iff.mpr le_rfl)
  · exact keeps_update rfl (fun _ _ => rfl) (fun _ _ => rfl)
      fun _ => Or.inl ⟨held_go.mpr (Or.inr trivial), rfl⟩

/-- The wait is over. -/
theorem Turns.seen (h : Turns m) (hpc : m.pc c = .wait loop) (hs : m.ticket c = m.serving)
    (hk : kind pc' = .busy) (hin : ¬ InLock pc') :
    Next m ({ m with turn := update m.turn c true }.go c pc') := by
  have hok := h.ok c
  rw [hpc] at hok
  refine ⟨⟨ok_update ?_ fun d hdc => ?_, h.tickets.go (iff_of_true (Or.inl rfl) ?_),
    h.outside hin⟩, ?_⟩
  · rw [hk]
    exact ⟨update_self .., hs, hs ▸ hok.2.2⟩
  · show Ok m.serving m.tcounter m.allstop _ (update m.turn c true d) _
    rw [update_of_ne hdc]
    exact h.ok d
  · rw [hpc]
    exact Or.inr trivial
  · exact keeps_update rfl (fun d hdc => update_of_ne hdc ..) (fun _ _ => rfl)
      fun _ => Or.inl ⟨Or.inl (update_self ..), rfl⟩

/-- A write of `allstop` by the core that has the turn. -/
theorem Turns.setAllstop (h : Turns m) {v : Bool} (ht : m.turn c = true)
    (hok : Ok m.serving m.tcounter v (m.ticket c) (m.turn c) (kind pc')) (hin : ¬ InLock pc') :
    Next m ({ m with allstop := v }.go c pc') where
  turns := ⟨ok_update hok fun d hdc => (h.ok d).setAllstop fun hd => absurd (h.one hd ht) hdc,
    h.tickets.move (iff_of_true (Or.inl ht) (Or.inl ht)), h.outside hin⟩
  keeps := keeps_update rfl (fun _ _ => rfl) (fun _ _ => rfl) fun _ => Or.inl ⟨Or.inl ht, rfl⟩

/-- The store of `++serving`: the one step that gives a number up. -/
theorem Turns.pass (h : Turns m) {value : ℤ} {leave : Bool} (hpc : m.pc c = .store value leave)
    (hk : kind pc' = .idle ∨ kind pc' = .looping) (hin : ¬ InLock pc') :
    Next m ({ m with serving := value, turn := update m.turn c false }.go c pc') := by
  have hok := h.ok c
  rw [hpc] at hok
  obtain ⟨ht, hc, hlt, rfl⟩ : m.turn c = true ∧ m.ticket c = m.serving ∧ m.serving < m.tcounter ∧
    value = m.serving + 1 := hok
  have hidle : update m.turn c false c = false ∧ m.ticket c < m.serving + 1 :=
    ⟨update_self .., by omega⟩
  refine ⟨⟨ok_update ?_ fun d hdc => ?_, h.tickets.pass hc hlt ?_, h.outside hin⟩, ?_⟩
  · rcases hk with hk | hk
    · rw [hk]
      exact hidle
    · rw [hk]
      exact Or.inl hidle
  · show Ok (m.serving + 1) m.tcounter m.allstop _ (update m.turn c false d) _
    rw [update_of_ne hdc]
    exact (h.ok d).pass fun hd he => hdc (h.tickets.inj hd (Or.inl ht) (he.trans hc.symm))
  · rcases hk with hk | hk <;> simp [hk, Holds]
  · exact keeps_update rfl (fun d hdc => update_of_ne hdc ..) (fun _ _ => rfl)
      fun _ => Or.inr ⟨ht, update_self .., rfl⟩

/-- A core leaves the loop without a number: the one that has the turn finds `allstop` set. -/
theorem Turns.check (h : Turns m) (hpc : m.pc c = .check) :
    Next m (m.go c (if m.allstop then .acquire true else .leave)) := by
  have hok := h.ok c
  rw [hpc] at hok
  split
  case isTrue => exact h.same (by rw [hpc]; rfl) (h.outside id)
  case isFalse hstop =>
    have hidle : m.turn c = false ∧ m.ticket c < m.serving :=
      hok.resolve_right fun h => hstop h.2.2.2
    refine h.idle hidle ?_ rfl nofun
    rw [Held, hpc, hidle.1]
    simp [Holds, kind]

/-- The branch for a pending `vCont`. -/
theorem Turns.resume (h : Turns m) (hpc : m.pc c = .serve) (hs : m.resume k c = some m') :
    Next m m' := by
  have hok := h.ok c
  rw [hpc] at hok
  have hload : Next m (m.go c (.load true)) := h.same (by rw [hpc]; rfl) (h.outside id)
  rw [Session.resume] at hs
  split at hs
  case h_1 =>
    obtain ⟨-, rfl⟩ := Option.ite_some_none_eq_some.mp hs
    exact hload
  case h_2 =>
    obtain ⟨-, rfl⟩ := Option.ite_some_none_eq_some.mp hs
    exact h.setAllstop hok.1 hok id
  case h_3 =>
    cases hs
    exact hload

/-- **Every statement keeps the invariant.** -/
theorem Turns.advance (h : Turns m) (hs : m.advance k c = some m') : Next m m' := by
  have hok := h.ok c
  cases hpc : m.pc c
  all_goals rw [Session.advance, hpc] at hs
  all_goals rw [hpc] at hok
  case resumed => cases hs
  case acquire loop =>
    obtain ⟨hfree, hs⟩ := Option.ite_none_left_eq_some.mp hs
    cases hs
    have hlocking := h.locking
    rw [Bool.eq_false_iff.mpr hfree] at hlocking
    exact h.same (by rw [hpc]; rfl) hlocking.acquire
  case test loop =>
    cases hs
    exact h.test hpc
  case take loop =>
    cases hs
    exact h.take hpc
  case bump loop =>
    obtain ⟨t, ht, rfl⟩ := Option.map_eq_some_iff.mp hs
    obtain ⟨-, rfl⟩ := Option.ite_some_none_eq_some.mp ht
    exact h.bump hpc
  case release loop =>
    cases hs
    exact h.same (by rw [hpc]; rfl) (h.locking.release (hpc ▸ trivial) id)
  case wait loop =>
    obtain ⟨hserved, rfl⟩ := Option.ite_some_none_eq_some.mp hs
    exact h.seen hpc hserved (by cases loop <;> rfl) (by cases loop <;> exact id)
  case raise =>
    cases hs
    exact h.setAllstop hok.1 ⟨hok.1, hok.2.1, hok.2.2, rfl⟩ id
  case stop rest =>
    cases rest with
    | nil =>
      cases hs
      exact h.same (by rw [hpc]; rfl) (h.outside id)
    | cons i rest =>
      cases hs
      refine h.same ?_ (h.outside ?_)
      · rw [hpc]
        split <;> rfl
      · split <;> exact id
  case await i rest =>
    obtain ⟨-, rfl⟩ := Option.ite_some_none_eq_some.mp hs
    exact h.same (by rw [hpc]; rfl) (h.outside id)
  case report =>
    cases hs
    exact Next.congr (h.same (by rw [hpc]; rfl) (h.outside id))
  case packets => cases hs
  case check =>
    cases hs
    exact h.check hpc
  case serve =>
    rcases ite_eq_iff.mp hs with ⟨-, hs⟩ | ⟨-, hs⟩
    · exact h.resume hpc hs
    · cases hs
      exact h.same (by rw [hpc]; rfl) (h.outside id)
  case load leave =>
    obtain ⟨value, hv, rfl⟩ := Option.map_eq_some_iff.mp hs
    obtain ⟨-, rfl⟩ := Option.ite_some_none_eq_some.mp hv
    exact h.busy hok.1 ⟨hok.1, hok.2.1, hok.2.2, rfl⟩ nofun
  case store value leave =>
    cases hs
    exact h.pass hpc (by cases leave <;> simp [kind]) (by cases leave <;> exact id)
  case leave =>
    cases hs
    exact Next.congr (h.same (by rw [hpc]; rfl) (h.outside id))

/-- **Every step keeps the invariant, and every core its number.** -/
theorem Turns.step (h : Turns m) {a : TurnAction ι} (hs : m.step k a = some m') : Next m m' := by
  cases a with
  | start c =>
    obtain ⟨-, rfl⟩ := Option.ite_some_none_eq_some.mp hs
    exact Next.congr ⟨h, fun _ hc => Or.inl ⟨hc, rfl⟩⟩
  | enter c vec =>
    obtain ⟨hpc, rfl⟩ := Option.ite_some_none_eq_some.mp hs
    have hidle := h.ok c
    rw [hpc] at hidle
    have hno : ¬ m.Held c := by
      rw [Held, hpc, hidle.1]
      simp [Holds, kind]
    have hnext : ∀ pc', kind pc' = .idle ∨ kind pc' = .looping → ¬ InLock pc' →
        Next m (m.go c pc') := by
      rintro pc' (hk | hk) hin
      · exact h.idle hidle hno hk fun h => absurd h hin
      · refine h.move (hk ▸ Or.inl hidle) (iff_of_false ?_ hno) (h.outside hin)
        rw [hk, hidle.1]
        simp [Holds]
    refine Next.congr (hnext (if vec = stopIPI then .check else .acquire false) ?_ ?_)
    · split
      · exact Or.inr rfl
      · exact Or.inl rfl
    · split <;> exact id
  | advance c => exact h.advance hs
  | packet c vCont hookBreak =>
    obtain ⟨hpc, hs⟩ := Option.ite_none_right_eq_some.mp hs
    cases vCont with
    | none =>
      cases hs
      exact Next.congr ⟨h, fun _ hc => Or.inl ⟨hc, rfl⟩⟩
    | some v =>
      cases hs
      have hok := h.ok c
      rw [hpc] at hok
      have hnext : Next m (m.go c .check) := h.busy hok.1 (Or.inr hok) nofun
      exact hnext.congr

/-! ## Whole runs -/

/-- The invariant in every run. -/
theorem turns_run {as : List (TurnAction ι)} (hrun : run (Session.step k) init as = some m) :
    Turns m :=
  invariant (fun h hs => (h.step hs).turns) turns_init hrun

/-- **One core at a time talks to the debugger.**  In every state reached, at most one core has the
turn, no number is held twice, each number from `serving` up to `tcounter` is held by exactly one
core, and whatever step comes next, a core that holds a number keeps it until it has the turn and
increments `serving`. -/
theorem turn_taking {as : List (TurnAction ι)} (hrun : run (Session.step k) init as = some m) :
    (∀ c d, m.turn c = true → m.turn d = true → c = d) ∧
    (∀ c d, m.Held c → m.Held d → m.ticket c = m.ticket d → c = d) ∧
    (∀ n, m.serving ≤ n → n < m.tcounter → ∃! c, m.Held c ∧ m.ticket c = n) ∧
    (∀ a m', m.step k a = some m' → ∀ c, Keeps m m' c) := by
  have h := turns_run hrun
  refine ⟨fun c d => h.one, fun c d => h.tickets.inj, fun n h1 h2 => ?_,
    fun a m' hs => (h.step hs).keeps⟩
  obtain ⟨c, hc, rfl⟩ := h.tickets.surj n h1 h2
  exact ⟨c, ⟨hc, rfl⟩, fun d hd => h.tickets.inj hd.1 hc hd.2⟩

/-- A run in which one core reports and passes the turn on to another one that waits. -/
theorem turn_taking_two_cores :
    ∃ m, run (Session.step ⟨[false, true], fun c => if c then 2 else 1⟩) init
      [[.enter false 3, .enter true 14], .replicate 5 (.advance false),
        .replicate 5 (.advance true), .replicate 6 (.advance false),
        [.packet false (some (.cont, -1)) false], .replicate 8 (.advance false)].flatten = some m ∧
      (m.serving = 2 ∧ m.tcounter = 3) ∧ ∃! c, m.Held c ∧ m.ticket c = 2 :=
  exists_run_and (by decide +kernel) fun _ hrun hm =>
    (turn_taking hrun).2.2.1 2 hm.1.le (hm.2 ▸ by decide)

end Session

end Gdb

end Kos

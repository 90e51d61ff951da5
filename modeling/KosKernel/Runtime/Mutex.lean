import KosKernel.Runtime.Episodes

/-!
# Runtime/Mutex — `Mutex` and `OwnerLock`

A mutex is a spin lock, an owner and a blocking queue.  `release` passes the ownership on to the
first waiter that is still `Blocked`, so a thread that `block` returns true to is the owner already.
The recursive path reads `owner` before it takes the spin lock, and `OwnerLock` counts after
`internalAcquire`, without the spin lock: both are steps of their own here.
-/

namespace Kos

open Function Runs Blocking

/-- Where a thread is in a call. -/
inductive LockPc
  | idle
  /-- in `internalAcquire`, after the first test of `owner` -/
  | acquiring (timeout : ℕ)
  | waiting
  /-- `internalAcquire` has returned true -/
  | acquired
  deriving DecidableEq

/-- A `Mutex`, or an `OwnerLock`, and its threads.  `holds` counts the successful `acquire` and
`tryAcquire` of a thread that it has not released yet. -/
structure Mutex (τ : Type) where
  b : Blocking Unit τ
  owner : Option τ
  counter : ℕ
  pc : τ → LockPc
  holds : τ → ℕ

namespace Mutex

variable {τ : Type} [DecidableEq τ]

inductive Action (τ : Type)
  /-- `acquire` and `tryAcquire`, up to the test of `owner`; the timeout of `acquire` is `limit` -/
  | acquire (t : τ) (timeout : ℕ)
  | enter (t : τ)
  /-- `bq.block` returns -/
  | unblocked (t : τ)
  | count (t : τ)
  | release (t : τ)
  | checkExpiry (now : ℕ)
  | advance (c : Claim τ)

def init : Mutex τ := ⟨Blocking.init, none, 0, fun _ => .idle, fun _ => 0⟩

variable (m : Mutex τ)

def move (t : τ) (pc : LockPc) : Mutex τ := { m with pc := update m.pc t pc }

@[simp, grind =] theorem move_pc (t u : τ) (pc : LockPc) :
    (m.move t pc).pc u = if u = t then pc else m.pc u := update_apply ..

@[simp, grind =] theorem move_owner (t : τ) (pc : LockPc) : (m.move t pc).owner = m.owner := rfl

@[simp, grind =] theorem move_holds (t : τ) (pc : LockPc) : (m.move t pc).holds = m.holds := rfl

@[simp, grind =] theorem move_counter (t : τ) (pc : LockPc) :
    (m.move t pc).counter = m.counter := rfl

variable (ownerLock : Bool) (m : Mutex τ)

/-- `acquire` returns, after `++counter` of an `OwnerLock`. -/
def count (t : τ) : Mutex τ :=
  { m.move t .idle with
    counter := if ownerLock then wadd m.counter 1 else m.counter
    holds := update m.holds t (m.holds t + 1) }

/-- The section of `internalAcquire`. -/
def enter (t : τ) (timeout : ℕ) : Mutex τ :=
  if m.owner = none then { m.move t .acquired with owner := some t }
  else
    let r := m.b.block t () timeout
    { m.move t (if r.1 then .waiting else .idle) with b := r.2 }

/-- `internalRelease`: `bq.resume` leaves the new owner in `owner`. -/
def internalRelease : Mutex τ :=
  { m with owner := (m.b.resume ()).1, b := (m.b.resume ()).2 }

/-- `release`, after the check that the thread is the owner. -/
def release (t : τ) : Mutex τ :=
  let m := { m with holds := update m.holds t (m.holds t - 1) }
  if ownerLock then
    let counter := wsub m.counter 1
    if counter = 0 then { m with counter }.internalRelease else { m with counter }
  else m.internalRelease

/-- One step; `ownerLock` says whether the object is an `OwnerLock`.  A `Mutex` asserts that a
thread does not acquire it twice, and only the owner releases. -/
def step : Action τ → Option (Mutex τ)
  | .acquire t timeout =>
    if m.pc t = .idle then
      if m.owner = some t then if ownerLock then some (m.move t .acquired) else none
      else some (m.move t (.acquiring timeout))
    else none
  | .enter t =>
    match m.pc t with
    | .acquiring timeout => some (m.enter t timeout)
    | _ => none
  | .unblocked t =>
    if m.pc t = .waiting ∧ m.b.pc t = .ready then
      some { m.move t (if m.b.result t = some true then .acquired else .idle) with
        b := m.b.dispatch t }
    else none
  | .count t => if m.pc t = .acquired then some (count ownerLock m t) else none
  | .release t => if m.pc t = .idle ∧ m.owner = some t then some (release ownerLock m t) else none
  | .checkExpiry now => some { m with b := m.b.checkExpiry now }
  | .advance c => if c ∈ m.b.calls then some { m with b := m.b.advance c } else none

/-- The `counter` is a word: no thread nests that many `acquire`. -/
def Shallow : Action τ → Prop
  | .count t => ownerLock = true → m.holds t + 1 < wordSize
  | _ => True

omit [DecidableEq τ] in
instance (ownerLock : Bool) (m : Mutex τ) : ∀ a, Decidable (Shallow ownerLock m a)
  | .count _ => inferInstanceAs (Decidable (_ → _))
  | .acquire _ _ | .enter _ | .unblocked _ | .release _ | .checkExpiry _
  | .advance _ => isTrue trivial

/-- The thread owns the mutex: it has acquired it, or it is on its way back from `internalAcquire`
or from `block`. -/
def Owns (m : Mutex τ) (ph : τ → Phase) (t : τ) : Prop :=
  0 < m.holds t ∨ m.pc t = .acquired ∨ (ph t).granted = true

/-- **The invariant.** -/
structure Inv (ownerLock : Bool) (m : Mutex τ) (ph : τ → Phase) : Prop where
  rep : m.b.Rep ph
  uncancelled : m.b.Uncancelled
  waiting : ∀ t, m.pc t = .waiting ↔ ph t ≠ .out
  queued : ∀ t, ph t ≠ .out → (m.b.info t).queue = some ()
  owner : ∀ t, m.owner = some t ↔ m.Owns ph t
  acquiring : ∀ t timeout, m.pc t = .acquiring timeout → m.owner ≠ some t
  blocked : ∀ t, ph t = .blocked → m.owner ≠ none
  granted : ∀ t, (ph t).granted = true → m.holds t = 0
  counter : ownerLock = true → m.counter = m.owner.elim 0 m.holds ∧ m.counter < wordSize
  single : ownerLock = false → ∀ t, m.holds t ≤ 1 ∧ (m.pc t = .acquired → m.holds t = 0)

variable {ownerLock : Bool} {m m' : Mutex τ} {ph : τ → Phase} {t u : τ}

theorem inv_init : Inv ownerLock (init : Mutex τ) fun _ => .out where
  rep := rep_init
  uncancelled _ := by simp [init, Blocking.init]
  waiting _ := by simp [init]
  queued := by simp
  owner _ := by simp [init, Owns, Phase.granted]
  acquiring := by simp [init]
  blocked := by simp
  granted := by simp [Phase.granted]
  counter _ := by simp [init, wordSize]
  single := by simp [init]

/-- The environment does not touch the mutex. -/
theorem Inv.quiet {ph' : τ → Phase} {b : Blocking Unit τ} (h : Inv ownerLock m ph)
    (hq : Quiet m.b ph b ph') (hu : b.Uncancelled) : Inv ownerLock { m with b } ph' where
  rep := hq.rep
  uncancelled := hu
  waiting t := (h.waiting t).trans (not_congr (hq.out t).symm)
  queued t ht := by
    rw [hq.queue]
    exact h.queued t (mt (hq.out t).mpr ht)
  owner t := by
    rw [Owns, hq.granted]
    exact h.owner t
  acquiring := h.acquiring
  blocked t hb := h.blocked t (hq.blocked t hb)
  granted t hg := h.granted t (hq.granted t ▸ hg)
  counter := h.counter
  single := h.single

/-- A thread that has a call pending, but does not wait, is out of the blocking queue. -/
theorem Inv.out (h : Inv ownerLock m ph) (hpc : m.pc t ≠ .waiting) : ph t = .out :=
  not_not.mp fun hout => hpc ((h.waiting t).mpr hout)

/-- A thread goes on inside a call. -/
theorem Inv.move {pc : LockPc} (h : Inv ownerLock m ph) (hpc : m.pc t ≠ .waiting)
    (hwait : pc ≠ .waiting) (hown : m.owner = some t → 0 < m.holds t ∨ pc = .acquired)
    (hacquired : pc = .acquired → m.owner = some t ∧ ownerLock = true)
    (hacquiring : ∀ timeout, pc = .acquiring timeout → m.owner ≠ some t) :
    Inv ownerLock (m.move t pc) ph where
  rep := h.rep
  uncancelled := h.uncancelled
  waiting u := by
    have := h.waiting u
    grind
  queued := h.queued
  owner u := by
    have := h.owner u
    grind [Owns]
  acquiring u := by
    have := h.acquiring u
    grind
  blocked := h.blocked
  granted := h.granted
  counter := h.counter
  single hlock u := by
    have := h.single hlock u
    grind

/-- The section of `internalAcquire` finds no owner. -/
theorem Inv.take {timeout : ℕ} (h : Inv ownerLock m ph) (hpc : m.pc t = .acquiring timeout)
    (hnone : m.owner = none) : Inv ownerLock { m.move t .acquired with owner := some t } ph := by
  have hown : ∀ u, ¬m.Owns ph u := fun u hu => by
    have := (h.owner u).mpr hu
    simp [hnone] at this
  refine ⟨h.rep, h.uncancelled, fun u => ?_, h.queued, fun u => ?_, fun u => ?_, fun u => ?_,
    h.granted, fun hlock => ?_, fun hlock u => ?_⟩
  · have := h.waiting u
    grind
  · have := hown u
    have := hown t
    grind [Owns]
  · have := h.acquiring u
    grind
  · simp
  · have := h.counter hlock
    have := hown t
    grind [Owns]
  · have := h.single hlock u
    have := hown u
    grind [Owns]

/-- The section of `internalAcquire` blocks the thread. -/
theorem Inv.wait {timeout : ℕ} {b : Blocking Unit τ} (h : Inv ownerLock m ph)
    (hpc : m.pc t = .acquiring timeout) (hsome : m.owner ≠ none)
    (hrep : b.Rep (update ph t .blocked)) (hu : b.Uncancelled)
    (hqueue : ∀ u, (b.info u).queue = if u = t then some () else (m.b.info u).queue) :
    Inv ownerLock { m.move t .waiting with b } (update ph t .blocked) := by
  have hout : ph t = .out := h.out (by simp [hpc])
  have hph : ∀ u, update ph t .blocked u = if u = t then .blocked else ph u := fun _ =>
    update_apply ..
  refine ⟨hrep, hu, fun u => ?_, fun u => ?_, fun u => ?_, fun u => ?_, fun _ _ => hsome,
    fun u => ?_, h.counter, fun hlock u => ?_⟩
  · have := h.waiting u
    grind
  · have := h.queued u
    grind
  · have := h.owner u
    grind [Owns, Phase.granted]
  · have := h.acquiring u
    grind
  · have := h.granted u
    grind [Phase.granted]
  · have := h.single hlock u
    grind

theorem Inv.enter {timeout : ℕ} (h : Inv ownerLock m ph) (hpc : m.pc t = .acquiring timeout) :
    ∃ ph', Inv ownerLock (m.enter t timeout) ph' := by
  rw [Mutex.enter]
  split
  · exact ⟨ph, h.take hpc ‹_›⟩
  · have hsome := ‹¬m.owner = none›
    have hout : ph t = .out := h.out (by simp [hpc])
    obtain ⟨hwait, hrep⟩ | ⟨hwait, hb⟩ := h.rep.block hout () timeout
    · simp only [hwait, if_true]
      exact ⟨_,
        h.wait hpc hsome hrep (h.uncancelled.of_spares (spares_block t () timeout))
        (block_queue hwait)⟩
    · simp only [hwait, hb]
      exact ⟨ph,
        h.move (by simp [hpc]) (by simp) (fun ho => absurd ho (h.acquiring t timeout hpc)) (by simp)
        (by simp)⟩

/-- `block` returns true to the owner, and false to others. -/
theorem Inv.unblocked (h : Inv ownerLock m ph) (hready : m.b.pc t = .ready) :
    Inv ownerLock { m.move t (if m.b.result t = some true then .acquired else .idle) with
      b := m.b.dispatch t } (update ph t .out) := by
  obtain ⟨w, hw⟩ := h.rep.ready hready
  have hresult : m.b.result t = some true ↔ (ph t).granted = true := by
    have hat : m.b.At t (.ready w) := hw ▸ h.rep.at_ t
    rw [hat.result_eq_true, hw]
    cases w <;> simp [Phase.granted]
  have hwaiting : m.pc t = .waiting := (h.waiting t).mpr (by simp [hw])
  have hph : ∀ u, update ph t .out u = if u = t then .out else ph u := fun _ =>
    update_apply ..
  refine ⟨h.rep.returned hw (h.uncancelled t), h.uncancelled.of_spares spares_dispatch, fun u => ?_,
    fun u => ?_, fun u => ?_, fun u => ?_, fun u => ?_, fun u => ?_, h.counter, fun hlock u => ?_⟩
  · have := h.waiting u
    grind
  · have := h.queued u
    rw [dispatch_info]
    grind
  · have := h.owner u
    grind [Owns, Phase.granted]
  · have := h.acquiring u
    grind
  · have := h.blocked u
    grind
  · have := h.granted u
    grind [Phase.granted]
  · have := h.single hlock u
    have := h.granted u
    grind

/-- `acquire` returns to the owner. -/
theorem Inv.count (h : Inv ownerLock m ph) (hpc : m.pc t = .acquired)
    (hshallow : ownerLock = true → m.holds t + 1 < wordSize) :
    Inv ownerLock (count ownerLock m t) ph := by
  have howner : m.owner = some t := (h.owner t).mpr (.inr (.inl hpc))
  have hout : ph t = .out := h.out (by simp [hpc])
  have hholds : ∀ u, update m.holds t (m.holds t + 1) u =
      if u = t then m.holds t + 1 else m.holds u := fun _ => update_apply ..
  rw [Mutex.count]
  refine ⟨h.rep, h.uncancelled, fun u => ?_, h.queued, fun u => ?_, fun u => ?_, h.blocked,
    fun u => ?_, fun hlock => ?_, fun hlock u => ?_⟩
  · have := h.waiting u
    grind
  · have := h.owner u
    grind [Owns]
  · have := h.acquiring u
    grind
  · have := h.granted u
    grind [Phase.granted]
  · obtain ⟨hcounter, -⟩ := h.counter hlock
    rw [howner, Option.elim_some] at hcounter
    have hlt := hshallow hlock
    have hadd : wadd m.counter 1 = m.holds t + 1 := by rw [hcounter, wadd_of_lt hlt]
    simp [hlock, howner, hadd, hlt]
  · have := h.single hlock u
    grind

/-- The owner gives the mutex up: the first waiter that is still `Blocked` becomes the owner. -/
theorem Inv.internalRelease {counter : ℕ} (h : Inv ownerLock m ph) (hpc : m.pc t = .idle)
    (howner : m.owner = some t) (hholds : m.holds t = 1)
    (hcounter : ownerLock = true → counter = 0) : ∃ ph', Inv ownerLock
      { m with holds := update m.holds t 0, counter : Mutex τ }.internalRelease ph' := by
  have hupd : ∀ u, update m.holds t 0 u = if u = t then 0 else m.holds u := fun _ =>
    update_apply ..
  have hout : ph t = .out := h.out (by simp [hpc])
  have hown : ∀ u, u ≠ t → ¬m.Owns ph u := fun u hut hu =>
    hut (Option.some.inj (((h.owner u).mpr hu).symm.trans howner))
  rw [Mutex.internalRelease, Blocking.resume]
  cases hf : m.b.firstBlocked () with
  | none =>
    refine ⟨ph, h.rep, h.uncancelled, h.waiting, h.queued, fun u => ?_, fun u => ?_, fun u hb => ?_,
      fun u => ?_, fun hlock => ?_, fun hlock u => ?_⟩
    · have := hown u
      grind [Owns, Phase.granted]
    · simp
    · exact absurd hb (h.rep.not_blocked hf (h.queued u (by simp [hb])))
    · have := h.granted u
      grind
    · simp [hcounter hlock]
    · have := h.single hlock u
      grind
  | some v =>
    have hv : ph v = .blocked := (h.rep.firstBlocked hf).1
    have hph : ∀ u, update ph v (.claimed .resume .cancelTimeout) u =
      if u = v then .claimed .resume .cancelTimeout else ph u := fun _ => update_apply ..
    have hvt : v ≠ t := by
      rintro rfl
      simp [hv] at hout
    have hvown := hown v hvt
    refine ⟨_, h.rep.resumeThread hf, h.uncancelled.of_spares spares_resumeThread, fun u => ?_,
      fun u => ?_, fun u => ?_,
      fun u => ?_, by simp, fun u => ?_, fun hlock => ?_, fun hlock u => ?_⟩
    · have := h.waiting u
      grind
    · have hqueued := h.queued u
      show _ → (m.b.info u).queue = some ()
      grind
    · have := hown u
      grind [Owns, Phase.granted]
    · have := h.acquiring u
      have := h.waiting v
      grind
    · have := h.granted u
      grind [Owns, Phase.granted]
    · simp only [hcounter hlock]
      grind [Owns]
    · have := h.single hlock u
      grind

/-- An idle owner has acquired the mutex. -/
theorem Inv.holds_pos (h : Inv ownerLock m ph) (hpc : m.pc t = .idle) (howner : m.owner = some t) :
    0 < m.holds t := by
  have hout : ph t = .out := h.out (by simp [hpc])
  have := (h.owner t).mp howner
  grind [Owns, Phase.granted]

theorem Inv.release (h : Inv ownerLock m ph) (hpc : m.pc t = .idle) (howner : m.owner = some t) :
    ∃ ph', Inv ownerLock (release ownerLock m t) ph' := by
  have hpos := h.holds_pos hpc howner
  rw [Mutex.release]
  cases ownerLock with
  | false =>
    have hone : m.holds t = 1 := by
      have := (h.single rfl t).1
      omega
    rw [hone]
    exact h.internalRelease hpc howner hone (by simp)
  | true =>
    obtain ⟨hcounter, hlt⟩ := h.counter rfl
    rw [howner, Option.elim_some] at hcounter
    have hsub : wsub m.counter 1 = m.holds t - 1 := by
      rw [wsub_of_le hlt (by omega), hcounter]
    simp only [hsub, if_true]
    split
    · have hone : m.holds t = 1 := by omega
      rw [hone]
      exact h.internalRelease hpc howner hone fun _ => rfl
    · have hupd : ∀ u, update m.holds t (m.holds t - 1) u =
        if u = t then m.holds t - 1 else m.holds u := fun _ => update_apply ..
      refine ⟨ph, h.rep, h.uncancelled, h.waiting, h.queued, fun u => ?_, h.acquiring, h.blocked,
        fun u => ?_, fun _ => ?_, by simp⟩
      · have := h.owner u
        grind [Owns]
      · have := h.granted u
        grind
      · simp only [howner, Option.elim_some, hupd, if_true, true_and]
        omega

/-- **One step keeps the invariant.** -/
theorem Inv.step {a : Action τ} (h : ∃ ph, Inv ownerLock m ph) (hg : Shallow ownerLock m a)
    (hs : step ownerLock m a = some m') : ∃ ph, Inv ownerLock m' ph := by
  obtain ⟨ph, h⟩ := h
  cases a with
  | acquire t timeout =>
    obtain ⟨hpc, hs⟩ := Option.ite_none_right_eq_some.mp hs
    by_cases howner : m.owner = some t
    · rw [if_pos howner] at hs
      obtain ⟨hlock, rfl⟩ := Option.ite_some_none_eq_some.mp hs
      exact ⟨ph,
        h.move (by simp [hpc]) (by simp) (fun _ => .inr rfl) (fun _ => ⟨howner, hlock⟩) (by simp)⟩
    · rw [if_neg howner] at hs
      cases hs
      exact ⟨ph, h.move (by simp [hpc]) (by simp) (fun ho => absurd ho howner) (by simp)
        (fun _ _ => howner)⟩
  | enter t =>
    rw [Mutex.step] at hs
    split at hs
    · cases hs
      exact h.enter ‹_›
    · cases hs
  | unblocked t =>
    obtain ⟨⟨-, hready⟩, rfl⟩ := Option.ite_some_none_eq_some.mp hs
    exact ⟨_, h.unblocked hready⟩
  | count t =>
    obtain ⟨hpc, rfl⟩ := Option.ite_some_none_eq_some.mp hs
    exact ⟨ph, h.count hpc hg⟩
  | release t =>
    obtain ⟨⟨hpc, howner⟩, rfl⟩ := Option.ite_some_none_eq_some.mp hs
    exact h.release hpc howner
  | checkExpiry now =>
    cases hs
    obtain ⟨ph', hq⟩ := h.rep.checkExpiry_quiet now
    exact ⟨ph', h.quiet hq (h.uncancelled.of_spares (spares_checkExpiry now))⟩
  | advance c =>
    obtain ⟨hc, rfl⟩ := Option.ite_some_none_eq_some.mp hs
    exact ⟨_, h.quiet (h.rep.advance_quiet hc) (h.uncancelled.of_spares (spares_advance c))⟩

/-! ## Ownership -/

/-- **`Mutex` and `OwnerLock`**, in every run in which no thread nests `2 ^ 64` calls of `acquire`:
at most one thread has acquired the mutex, and it is the owner; the owner has acquired the mutex, or
it is on its way back with it; a thread that `block` returns true to is the owner; no thread of the
queue is `Blocked` while there is no owner; and the counter of an `OwnerLock` is the number of calls
of `acquire` that the owner has not released, so it is zero while the mutex is being passed on. -/
theorem mutex_ownership {as : List (Action τ)} (hrun : run (step ownerLock) init as = some m)
    (hguard : Guarded (step ownerLock) (Shallow ownerLock) init as) :
    (∀ t u, 0 < m.holds t → 0 < m.holds u → t = u) ∧
      (∀ t, 0 < m.holds t → m.owner = some t) ∧
      (∀ t, m.owner = some t → 0 < m.holds t ∨ m.pc t = .acquired ∨ m.b.Granted t) ∧
      (∀ t, m.b.pc t = .ready → m.b.result t = some true → m.owner = some t) ∧
      (m.owner = none → ∀ t ∈ m.b.queue (), m.b.state t ≠ .blocked) ∧
      (ownerLock = true →
        m.counter = m.owner.elim 0 m.holds ∧ ∀ t, m.b.Granted t → m.counter = 0) := by
  obtain ⟨ph, h⟩ := invariant_of_guarded Inv.step ⟨_, inv_init⟩ hguard hrun
  have howner : ∀ t, 0 < m.holds t → m.owner = some t := fun t ht => (h.owner t).mpr (.inl ht)
  refine ⟨fun t u ht hu => ?_, howner, fun t ht => ?_, fun t hready hresult => ?_,
    fun hnone t _ hb => ?_, fun hlock => ⟨(h.counter hlock).1, fun t hg => ?_⟩⟩
  · exact Option.some.inj ((howner t ht).symm.trans (howner u hu))
  · rw [(h.rep.at_ t).granted_iff]
    exact (h.owner t).mp ht
  · obtain ⟨w, hw⟩ := h.rep.ready hready
    have hat : m.b.At t (.ready w) := hw ▸ h.rep.at_ t
    refine (h.owner t).mpr (.inr (.inr ?_))
    rw [hw, hat.result_eq_true.mp hresult]
    rfl
  · exact h.blocked t ((h.rep.at_ t).blocked.mp hb) hnone
  · have hgranted := (h.rep.at_ t).granted_iff.mp hg
    rw [(h.counter hlock).1, (h.owner t).mpr (.inr (.inr hgranted))]
    exact h.granted t hgranted

/-- Thread 0 acquires an `OwnerLock` twice; thread 1 waits, and gets it with the second
`release`. -/
theorem mutex_ownership_passedOn : ∃ m : Mutex (Fin 2),
    run (step true) init [.acquire 0 limit, .enter 0, .count 0, .acquire 1 limit, .acquire 0 0,
      .count 0, .enter 1, .release 0, .release 0] = some m ∧ (m.b.Granted 1 ∧ m.holds 0 = 0) ∧
      ∀ t, m.b.Granted t → m.counter = 0 := by
  refine exists_run_and (by decide +kernel) fun m hrun _ => ?_
  obtain ⟨-, -, -, -, -, hcounter⟩ := mutex_ownership hrun (guarded_of_decide (by decide +kernel))
  exact (hcounter rfl).2

/-! ### Nesting beyond the counter -/

/-- The lock after thread 0 has acquired it `n + 1` times. -/
structure Nested (n : ℕ) (m : Mutex (Fin 2)) : Prop where
  b : m.b = Blocking.init
  owner : m.owner = some 0
  counter : m.counter = (n + 1) % wordSize
  pc : ∀ t, m.pc t = .idle
  holds : ∀ t, m.holds t = if t = 0 then n + 1 else 0

/-- The actions of one thread. -/
def nesting (t : τ) : ℕ → List (Action τ)
  | 0 => [.acquire t limit, .enter t, .count t]
  | n + 1 => nesting t n ++ [.acquire t limit, .count t]

theorem exists_nested : ∀ n, ∃ m, run (step true) init (nesting 0 n) = some m ∧ Nested n m
  | 0 => by
    refine ⟨_, rfl, rfl, rfl, rfl, ?_, ?_⟩
    · decide
    · decide
  | n + 1 => by
    obtain ⟨m, hrun, hm⟩ := exists_nested n
    have hacquire : step true m (.acquire 0 limit) = some (m.move 0 .acquired) := by
      simp [step, hm.pc, hm.owner]
    have hcount :
        step true (m.move 0 .acquired) (.count 0) = some (count true (m.move 0 .acquired) 0) := by
      simp [step]
    refine ⟨_, run_append.mpr ⟨m, hrun, run_cons.mpr ⟨_, hacquire, run_cons.mpr
      ⟨_, hcount, run_nil.mpr rfl⟩⟩⟩, hm.b, hm.owner, ?_, fun t => ?_, fun t => ?_⟩
    · show wadd m.counter 1 = _
      rw [hm.counter, wadd, Nat.mod_add_mod]
    · simp [count, hm.pc]
    · show update m.holds 0 (m.holds 0 + 1) t = _
      rw [update_apply, hm.holds, hm.holds]
      split <;> rfl

/-- The `release` after `2 ^ 64 + 1` calls of `acquire` drops the ownership. -/
theorem Nested.release {m : Mutex (Fin 2)} (hm : Nested wordSize m) :
    step true m (.release 0) = some { m with
      owner := none, counter := 0, holds := update m.holds 0 wordSize } := by
  have hcounter : wsub m.counter 1 = 0 := by
    rw [hm.counter]
    decide
  have hholds : m.holds 0 - 1 = wordSize := by rw [hm.holds]; rfl
  simp [step, hm.pc, hm.owner, Mutex.release, hcounter, internalRelease, hholds, hm.b,
    Blocking.resume, firstBlocked, Blocking.init]

/-- A thread acquires a free lock. -/
theorem exists_acquired (hpc : m.pc t = .idle) (hnone : m.owner = none) :
    ∃ m', run (step true) m [.acquire t limit, .enter t, .count t] = some m' ∧
      m'.holds = update m.holds t (m.holds t + 1) :=
  ⟨count true { (m.move t (.acquiring limit)).move t .acquired with owner := some t } t,
    by simp [run, step, enter, hpc, hnone], rfl⟩

/-- **Two owners of one lock**: after `2 ^ 64 + 1` nested calls the counter is one again, a single
`release` drops the ownership, and thread 1 acquires the lock as well. -/
theorem nesting_overflow_admits_two : ∃ (as : List (Action (Fin 2))) (m : Mutex (Fin 2)),
    run (step true) init as = some m ∧ 0 < m.holds 0 ∧ 0 < m.holds 1 := by
  obtain ⟨m, hrun, hm⟩ := exists_nested wordSize
  obtain ⟨m', hrun', hholds⟩ := exists_acquired (t := 1) (m := { m with
    owner := none, counter := 0, holds := update m.holds 0 wordSize }) (hm.pc 1) rfl
  refine ⟨nesting 0 wordSize ++ .release 0 :: [.acquire 1 limit, .enter 1, .count 1], m',
    run_append.mpr ⟨m, hrun, run_cons.mpr ⟨_, hm.release, hrun'⟩⟩, ?_, ?_⟩ <;> simp [hholds]

end Mutex

end Kos

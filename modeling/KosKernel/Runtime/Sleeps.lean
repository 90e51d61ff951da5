import KosKernel.Runtime.Episodes

/-!
# Runtime/Sleeps — durations and the timeout queue

The keys of `Timeout::queue` are clock values, and `Timeout::checkExpiry` compares them with
`Clock::now`. Four calls take a duration: `usleep` (`kernel/syscalls.cc`) adds it to the clock, but
`cdi_sleep_ms` (`extern/cdi/cdi_glue.cc`), `sys_arch_sem_wait` and `sys_arch_mbox_fetch`
(`extern/lwip/sys_arch.cc`) pass it on as it is, through `tryP`, `tryRecv` and
`BlockingQueue::block`.  Such a thread is due as soon as the clock has reached the duration itself
(`expires_late_iff`).
-/

namespace Kos

open Function Runs Blocking

/-- The calls that take a duration.  `k` is the blocking queue of a `Semaphore`, or the `recvQueue`
of a `MessageQueue`. -/
inductive TimedCall (κ : Type)
  | usleep (usecs : UInt64)
  | cdiSleepMs (ms : UInt32)
  | semWait (k : κ) (timeout : UInt32)
  | mboxFetch (k : κ) (timeout : UInt32)

def TimedCall.duration {κ : Type} : TimedCall κ → ℕ
  | .usleep usecs => usecs.toNat
  | .cdiSleepMs ms => ms.toNat
  | .semWait _ timeout | .mboxFetch _ timeout => timeout.toNat

theorem TimedCall.duration_lt {κ : Type} (c : TimedCall κ) : c.duration < wordSize := by
  cases c with
  | usleep usecs => exact usecs.toNat_lt
  | cdiSleepMs ms => exact ms.toNat_lt.trans (by decide)
  | semWait _ timeout | mboxFetch _ timeout => exact timeout.toNat_lt.trans (by decide)

/-- The clock, the threads and, for each queue, what can be had without blocking: the `counter` of
the `Semaphore`, or the `recvSlots` of the `MessageQueue`. -/
structure Sleeps (κ τ : Type) where
  clock : ℕ
  b : Blocking κ τ
  avail : κ → ℕ

namespace Sleeps

variable {κ τ : Type} [DecidableEq κ] [DecidableEq τ]

inductive Action (κ τ : Type)
  /-- `Clock::ticker` -/
  | tick
  | call (t : τ) (c : TimedCall κ)
  /-- `V`, or the end of `internalSend` -/
  | post (k : κ)
  /-- `Timeout::checkExpiry(Clock::now())` of the RTC interrupt -/
  | checkExpiry
  /-- any other step of a thread that blocks, wakes a thread or goes on -/
  | other (a : Blocking.Action κ τ)

def init (avail : κ → ℕ) : Sleeps κ τ := ⟨0, Blocking.init, avail⟩

variable (s : Sleeps κ τ)

/-- `internalP` and `internalRecv`, up to the return from `block`. -/
def take (t : τ) (k : κ) (timeout : ℕ) : Sleeps κ τ :=
  if s.avail k = 0 then { s with b := (s.b.block t k timeout).2 }
  else { s with avail := update s.avail k (s.avail k - 1) }

/-- The timeout that `sys_arch_sem_wait` and `sys_arch_mbox_fetch` pass on: zero is none. -/
def lwipTimeout (timeout : UInt32) : ℕ := if timeout = 0 then limit else timeout.toNat

def call (t : τ) : TimedCall κ → Sleeps κ τ
  | .usleep usecs => { s with b := s.b.suspend t (.timeout (wadd s.clock usecs.toNat)) }
  | .cdiSleepMs ms => { s with b := s.b.suspend t (.timeout ms.toNat) }
  | .semWait k timeout | .mboxFetch k timeout => s.take t k (lwipTimeout timeout)

def post (k : κ) : Sleeps κ τ :=
  match s.b.resume k with
  | (some _, b) => { s with b }
  | (none, b) => { s with b, avail := update s.avail k (wadd (s.avail k) 1) }

def step (s : Sleeps κ τ) : Action κ τ → Option (Sleeps κ τ)
  | .tick => some { s with clock := wadd s.clock 1 }
  | .call t c => if s.b.pc t = .out then some (s.call t c) else none
  | .post k => some (s.post k)
  | .checkExpiry => some { s with b := s.b.checkExpiry s.clock }
  | .other (.checkExpiry _) => none
  | .other a => (s.b.step a).map fun b => { s with b }

/-- The clock does not wrap round. -/
def Steady : Action κ τ → Prop
  | .tick => s.clock + 1 < wordSize
  | _ => True

/-- `checkExpiry` takes the thread out of its wait. -/
def Expires (t : τ) : Prop :=
  s.b.state t = .blocked ∧ (s.b.checkExpiry s.clock).state t ≠ .blocked

end Sleeps

/-! ## The timeout queue -/

namespace Blocking

variable {κ τ : Type} {b b' b'' : Blocking κ τ} {t u : τ}

/-- The timeout queue is ordered by its keys. -/
def Sorted (b : Blocking κ τ) : Prop := b.timers.Pairwise fun e e' => e.key ≤ e'.key

theorem insertTimer_cons (e x : Timer τ) (l : List (Timer τ)) :
    insertTimer e (x :: l) = if x.key ≤ e.key then x :: insertTimer e l else e :: x :: l := by
  by_cases hx : x.key ≤ e.key
  · simp [insertTimer, hx]
  · simp [insertTimer, hx]

theorem sorted_insertTimer (e : Timer τ) :
    ∀ {l : List (Timer τ)}, l.Pairwise (fun e e' => e.key ≤ e'.key) →
    (insertTimer e l).Pairwise fun e e' => e.key ≤ e'.key
  | [], _ => List.pairwise_singleton _ _
  | x :: l, h => by
    obtain ⟨hx, hl⟩ := List.pairwise_cons.mp h
    rw [insertTimer_cons]
    split
    · rename_i hle
      refine List.pairwise_cons.mpr ⟨fun y hy => ?_, sorted_insertTimer e hl⟩
      rcases mem_insertTimer.mp hy with rfl | hy
      · exact hle
      · exact hx y hy
    · rename_i hgt
      refine List.pairwise_cons.mpr ⟨fun y hy => ?_, h⟩
      rcases List.mem_cons.mp hy with rfl | hy
      · omega
      · have := hx y hy
        omega

/-- The timeout queue stays ordered; and as long as nothing happens to a thread, it gets no new
entry there. -/
structure Keeps (b b' : Blocking κ τ) : Prop where
  sorted : b.Sorted → b'.Sorted
  grows : ∀ t, b.log t <+: b'.log t
  timers : ∀ e ∈ b'.timers, b'.log e.thread = b.log e.thread → e ∈ b.timers

theorem Keeps.refl (b : Blocking κ τ) : Keeps b b :=
  ⟨id, fun _ => List.prefix_rfl, fun _ he _ => he⟩

theorem Keeps.trans (h : Keeps b b') (h' : Keeps b' b'') : Keeps b b'' := by
  refine ⟨fun hs => h'.sorted (h.sorted hs), fun t => (h.grows t).trans (h'.grows t),
    fun e he hlog => ?_⟩
  have hle := (h'.grows e.thread).length_le
  have hsame := ((h.grows e.thread).eq_of_length_le (hlog ▸ hle)).symm
  exact h.timers e (h'.timers e he (hlog.trans hsame.symm)) hsame

/-- Nothing happens to any thread, and the timeout queue does not grow. -/
theorem Keeps.quiet (hlog : b'.log = b.log) (htimers : b'.timers.Sublist b.timers) : Keeps b b' :=
  ⟨fun hs => hs.sublist htimers, fun _ => hlog ▸ List.prefix_rfl, fun _ he _ => htimers.subset he⟩

variable [DecidableEq τ]

theorem grows_note {x : Event} (hlog : b'.log = b.note u x) (t : τ) :
    b.log t <+: b'.log t ∧ (b'.log t = b.log t → t ≠ u) := by
  rw [hlog]
  by_cases hu : t = u
  · subst hu
    rw [note, update_self]
    refine ⟨List.prefix_append _ _, fun hsame => ?_⟩
    exact absurd (congrArg List.length hsame) (by simp)
  · rw [note_of_ne hu]
    exact ⟨List.prefix_rfl, fun _ => hu⟩

/-- Something happens to a thread, and the timeout queue does not grow. -/
theorem Keeps.event {x : Event} (hlog : b'.log = b.note u x)
    (htimers : b'.timers.Sublist b.timers) : Keeps b b' :=
  ⟨fun hs => hs.sublist htimers, fun t => (grows_note hlog t).1, fun _ he _ => htimers.subset he⟩

theorem keeps_expire (b : Blocking κ τ) (e : Timer τ) : Keeps b (b.expire e) := by
  rw [expire]
  split
  · exact .event rfl List.filter_sublist
  · exact .refl b

theorem keeps_checkLoop (now : ℕ) :
    ∀ (es : List (Timer τ)) (b : Blocking κ τ), Keeps b (checkLoop now es b)
  | [], b => .refl b
  | e :: es, b => by
    rw [checkLoop]
    split
    · exact (keeps_expire b e).trans (keeps_checkLoop now es _)
    · exact .refl b

theorem keeps_terminate (b : Blocking κ τ) (u : τ) : Keeps b (b.terminate u) := .event rfl (.refl _)

theorem expire_state (b : Blocking κ τ) (e : Timer τ) (t : τ) : (b.expire e).state t =
    if b.state e.thread = .blocked ∧ t = e.thread then .running else b.state t := by
  rw [expire]
  split
  · rename_i hb
    simp only [claim, update_apply, hb, true_and]
  · rename_i hb
    rw [if_neg fun h => hb h.1]

/-- A thread that `checkExpiry` takes out of its wait has an entry that is due. -/
theorem due_of_checkLoop (now : ℕ) :
    ∀ {es : List (Timer τ)} {b : Blocking κ τ}, b.state t = .blocked →
    (checkLoop now es b).state t ≠ .blocked → ∃ e ∈ es, e.thread = t ∧ e.key ≤ now
  | [], _, hb, hexp => absurd hb hexp
  | e :: es, b, hb, hexp => by
    rw [checkLoop] at hexp
    split at hexp
    · rename_i hdue
      by_cases ht : t = e.thread
      · exact ⟨e, List.mem_cons_self, ht.symm, hdue⟩
      · have hstill : (b.expire e).state t = .blocked := by
          rw [expire_state, if_neg fun h => ht h.2, hb]
        obtain ⟨e', he', hdue'⟩ := due_of_checkLoop now hstill hexp
        exact ⟨e', List.mem_cons_of_mem e he', hdue'⟩
    · exact absurd hb hexp

theorem checkLoop_ne_blocked (now : ℕ) :
    ∀ (es : List (Timer τ)) {b : Blocking κ τ}, b.state t ≠ .blocked →
    (checkLoop now es b).state t ≠ .blocked
  | [], _, h => h
  | e :: es, b, h => by
    rw [checkLoop]
    split
    · refine checkLoop_ne_blocked now es ?_
      rw [expire_state]
      split
      · decide
      · exact h
    · exact h

/-- Every thread with an entry that is due is taken out of its wait, since the queue is ordered. -/
theorem checkLoop_of_due {now : ℕ} {e : Timer τ} (hdue : e.key ≤ now) : ∀ {es : List (Timer τ)}
    {b : Blocking κ τ}, es.Pairwise (fun e e' => e.key ≤ e'.key) → e ∈ es →
    (checkLoop now es b).state e.thread ≠ .blocked
  | x :: es, b, hsorted, he => by
    obtain ⟨hx, hes⟩ := List.pairwise_cons.mp hsorted
    have hxdue : x.key ≤ now := by
      rcases List.mem_cons.mp he with rfl | he
      · exact hdue
      · exact (hx e he).trans hdue
    rw [checkLoop, if_pos hxdue]
    rcases List.mem_cons.mp he with rfl | he
    · refine checkLoop_ne_blocked now es ?_
      rw [expire_state]
      split
      · decide
      · rename_i hno
        exact fun hb => hno ⟨hb, rfl⟩
    · exact checkLoop_of_due hdue hes he

variable [DecidableEq κ]

theorem keeps_suspend (b : Blocking κ τ) (u : τ) (w : Wait κ) : Keeps b (b.suspend u w) := by
  by_cases hrun : b.state u = .running
  · have hlog : (b.suspend u w).log = b.note u .start := by rw [suspend, if_pos hrun]
    refine ⟨fun hs => ?_, fun t => (grows_note hlog t).1, fun e he hsame => ?_⟩
    · rw [Sorted, suspend, if_pos hrun]
      cases w.key with
      | none => exact hs
      | some key => exact sorted_insertTimer _ hs
    · obtain he | ⟨key, -, rfl⟩ := (mem_timers_suspend hrun).mp he
      · exact he
      · exact absurd rfl ((grows_note hlog u).2 hsame)
  · rw [suspend, if_neg hrun]
    exact .refl b

theorem keeps_resume (b : Blocking κ τ) (k : κ) : Keeps b (b.resume k).2 := by
  rw [resume]
  split
  · exact .refl b
  · exact .event rfl (.refl _)

theorem keeps_advance (b : Blocking κ τ) (c : Claim τ) : Keeps b (b.advance c) := by
  rw [advance]
  split
  · refine .quiet rfl ?_
    cases (b.info c.thread).titer with
    | none => exact .refl _
    | some n => exact List.filter_sublist
  · exact .quiet rfl (.refl _)
  · exact .quiet rfl (.refl _)
  · exact .event rfl (.refl _)

theorem keeps_step {a : Action κ τ} (hs : b.step a = some b') : Keeps b b' := by
  cases a with
  | suspend u w =>
    obtain ⟨-, hs⟩ := Option.ite_none_right_eq_some.mp hs
    exact Option.some.inj hs ▸ keeps_suspend b u w
  | resume k => exact Option.some.inj hs ▸ keeps_resume b k
  | checkExpiry now => exact Option.some.inj hs ▸ keeps_checkLoop now b.timers b
  | cancel u =>
    cases hs
    rw [cancel]
    split
    · exact .event rfl (.refl _)
    · exact .quiet rfl (.refl _)
  | advance c =>
    obtain ⟨-, hs⟩ := Option.ite_none_right_eq_some.mp hs
    exact Option.some.inj hs ▸ keeps_advance b c
  | dispatch u =>
    obtain ⟨-, rfl⟩ := Option.ite_some_none_eq_some.mp hs
    rw [dispatch]
    split
    · exact keeps_terminate b u
    · exact .event rfl (.refl _)
  | terminate u =>
    obtain ⟨-, hs⟩ := Option.ite_none_right_eq_some.mp hs
    exact Option.some.inj hs ▸ keeps_terminate b u

end Blocking

/-! ## Who is expired when -/

namespace Sleeps

variable {κ τ : Type} [DecidableEq κ] [DecidableEq τ] {s s' s₁ : Sleeps κ τ} {t : τ}
  {c : TimedCall κ}

/-- What a call does to the threads, if anything, is a `suspend`. -/
theorem call_b (s : Sleeps κ τ) (t : τ) (c : TimedCall κ) :
    (s.call t c).clock = s.clock ∧
      ((s.call t c).b = s.b ∨ ∃ w, (s.call t c).b = s.b.suspend t w) := by
  have htake (k : κ) (timeout : ℕ) : (s.take t k timeout).clock = s.clock ∧
      ((s.take t k timeout).b = s.b ∨ ∃ w, (s.take t k timeout).b = s.b.suspend t w) := by
    rw [take]
    split
    · refine ⟨rfl, ?_⟩
      dsimp only
      rw [block]
      split
      · exact .inl rfl
      · exact .inr ⟨_, rfl⟩
    · exact ⟨rfl, .inl rfl⟩
  cases c with
  | usleep usecs => exact ⟨rfl, .inr ⟨_, rfl⟩⟩
  | cdiSleepMs ms => exact ⟨rfl, .inr ⟨_, rfl⟩⟩
  | semWait k timeout => exact htake k _
  | mboxFetch k timeout => exact htake k _

/-- **A step is a tick, or at most one step of `Blocking`.** -/
theorem step_cases {a : Action κ τ} (hs : s.step a = some s') :
    (s'.clock = s.clock ∨ a = .tick ∧ s'.clock = wadd s.clock 1) ∧
      (s'.b = s.b ∨ ∃ a', s.b.step a' = some s'.b) := by
  cases a with
  | tick => exact Option.some.inj hs ▸ ⟨.inr ⟨rfl, rfl⟩, .inl rfl⟩
  | call t c =>
    obtain ⟨hpc, rfl⟩ := Option.ite_some_none_eq_some.mp hs
    obtain ⟨hclock, hb | ⟨w, hb⟩⟩ := s.call_b t c
    · exact ⟨.inl hclock, .inl hb⟩
    · refine ⟨.inl hclock, .inr ⟨.suspend t w, ?_⟩⟩
      rw [Blocking.step, if_pos hpc, hb]
  | post k =>
    cases hs
    rw [post]
    split
    · rename_i hr
      exact ⟨.inl rfl, .inr ⟨.resume k, by rw [Blocking.step, hr]⟩⟩
    · rename_i hr
      exact ⟨.inl rfl, .inr ⟨.resume k, by rw [Blocking.step, hr]⟩⟩
  | checkExpiry => exact Option.some.inj hs ▸ ⟨.inl rfl, .inr ⟨.checkExpiry s.clock, rfl⟩⟩
  | other a =>
    cases a with
    | checkExpiry now => cases hs
    | suspend | resume | cancel | advance | dispatch | terminate =>
      simp only [step] at hs
      obtain ⟨b, hb, rfl⟩ := Option.map_eq_some_iff.mp hs
      exact ⟨.inl rfl, .inr ⟨_, hb⟩⟩

/-- The threads follow the cycle of `Blocking`, the timeout queue is ordered, and the clock is a
word. -/
structure Inv (s : Sleeps κ τ) : Prop where
  b : s.b.Inv
  sorted : s.b.Sorted
  clock : s.clock < wordSize

omit [DecidableEq κ] in
theorem inv_init (avail : κ → ℕ) : (init avail : Sleeps κ τ).Inv :=
  ⟨⟨_, rep_init⟩, List.Pairwise.nil, Nat.two_pow_pos 64⟩

theorem Inv.step {a : Action κ τ} (h : s.Inv) (hs : s.step a = some s') : s'.Inv := by
  obtain ⟨hclock, hb⟩ := step_cases hs
  have hlt : s'.clock < wordSize := by
    obtain hclock | ⟨-, hclock⟩ := hclock
    · exact hclock ▸ h.clock
    · exact hclock ▸ Nat.mod_lt _ (by decide)
  obtain hb | ⟨a', hb⟩ := hb
  · exact ⟨hb ▸ h.b, hb ▸ h.sorted, hlt⟩
  · exact ⟨h.b.step hb, (keeps_step hb).sorted h.sorted, hlt⟩

theorem step_keeps {a : Action κ τ} (hs : s.step a = some s') : Keeps s.b s'.b := by
  obtain ⟨-, hb | ⟨a', hb⟩⟩ := step_cases hs
  · exact hb ▸ .refl s.b
  · exact keeps_step hb

theorem step_clock {a : Action κ τ} (hC : s.Steady a) (hs : s.step a = some s') :
    s.clock ≤ s'.clock := by
  obtain ⟨hclock | ⟨rfl, hclock⟩, -⟩ := step_cases hs
  · exact hclock.ge
  · rw [hclock, wadd_of_lt hC]
    exact Nat.le_succ _

/-- What holds along every run in which the clock does not wrap round. -/
theorem run_keeps {as : List (Action κ τ)} (hinv : s.Inv) (hg : Guarded step Steady s as)
    (hrun : run step s as = some s') : s'.Inv ∧ Keeps s.b s'.b ∧ s.clock ≤ s'.clock :=
  invariant_of_guarded (P := fun s' => s'.Inv ∧ Keeps s.b s'.b ∧ s.clock ≤ s'.clock)
    (fun h hC hs => ⟨h.1.step hs, h.2.1.trans (step_keeps hs), h.2.2.trans (step_clock hC hs)⟩)
    ⟨hinv, .refl s.b, le_rfl⟩ hg hrun

/-- The key that the call enters into the timeout queue at the clock value `now`. -/
def key (now : ℕ) : TimedCall κ → ℕ
  | .usleep usecs => wadd now usecs.toNat
  | c => c.duration

/-- A call that blocks enters its thread under its key. -/
theorem call_blocks (hc : 0 < c.duration) (hb : (s.call t c).b.state t = .blocked)
    (hout : s.b.state t ≠ .blocked) :
    ∃ w, (s.call t c).b = s.b.suspend t w ∧ w.key = some (key s.clock c) := by
  have htake (k : κ) (timeout : UInt32) (hpos : 0 < timeout.toNat)
      (hb : (s.take t k (lwipTimeout timeout)).b.state t = .blocked) :
      ∃ w, (s.take t k (lwipTimeout timeout)).b = s.b.suspend t w ∧ w.key = some timeout.toNat := by
    have hne : timeout ≠ 0 := fun h => by simp [h] at hpos
    have hlim : timeout.toNat ≠ limit := (timeout.toNat_lt.trans (by decide)).ne
    rw [take] at hb ⊢
    split at hb
    · rename_i havail
      refine ⟨.timeoutBlocking k timeout.toNat, ?_, rfl⟩
      rw [if_pos havail]
      simp only [block, waitFor, lwipTimeout, if_neg hne, if_neg hlim, if_pos hpos]
    · exact absurd hb hout
  cases c with
  | usleep usecs => exact ⟨_, rfl, rfl⟩
  | cdiSleepMs ms => exact ⟨_, rfl, rfl⟩
  | semWait k timeout => exact htake k timeout hc hb
  | mboxFetch k timeout => exact htake k timeout hc hb

/-- After such a call, the entry under its key is the only one of the thread. -/
theorem call_timers (hinv : s.Inv) (hs : s.step (.call t c) = some s₁)
    (hb : s₁.b.state t = .blocked) (hc : 0 < c.duration) : s₁.clock = s.clock ∧
      (∃ e ∈ s₁.b.timers, e.thread = t ∧ e.key = key s.clock c) ∧ ∀ e ∈ s₁.b.timers, e.thread = t →
      e.key = key s.clock c := by
  obtain ⟨hpc, rfl⟩ := Option.ite_some_none_eq_some.mp hs
  obtain ⟨ph, hrep⟩ := hinv.b
  have hph := hrep.out hpc
  have hout : s.b.state t ≠ .blocked := fun h => by
    have := (hrep.at_ t).blocked.mp h
    rw [hph] at this
    cases this
  obtain ⟨w, hw, hkey⟩ := call_blocks hc hb hout
  rw [hw] at hb ⊢
  have hrun : s.b.state t = .running := by
    by_contra hrun
    rw [suspend, if_neg hrun] at hb
    exact hout hb
  refine ⟨(s.call_b t c).1, ⟨⟨s.b.fresh, key s.clock c, t⟩, ?_, rfl, rfl⟩, fun e he ht => ?_⟩
  · exact (mem_timers_suspend hrun).mpr (.inr ⟨_, hkey, rfl⟩)
  · obtain he | ⟨k, hk, rfl⟩ := (mem_timers_suspend hrun).mp he
    · have := (((hrep.at_ t).timed e.id).mp ⟨e, he, rfl, ht⟩).1
      rw [hph] at this
      cases this
    · exact Option.some.inj (hk.symm.trans hkey)

/-- Ticks only, up to a later clock value. -/
theorem run_ticks : ∀ (n : ℕ) (s : Sleeps κ τ), s.clock + n < wordSize →
    run step s (List.replicate n .tick) = some { s with clock := s.clock + n } ∧
      Guarded step Steady s (List.replicate n .tick)
  | 0, s, _ => ⟨rfl, trivial⟩
  | n + 1, s, h => by
    have hone : s.clock + 1 < wordSize := by omega
    have hstep : s.step .tick = some { s with clock := s.clock + 1 } := by
      rw [step, wadd_of_lt hone]
    obtain ⟨hrun, hg⟩ := run_ticks n { s with clock := s.clock + 1 } (by dsimp only; omega)
    rw [List.replicate_succ]
    refine ⟨run_cons.mpr ⟨_, hstep, ?_⟩, guarded_cons hone hstep hg⟩
    rw [hrun]
    simp only [Option.some.injEq, mk.injEq, and_true]
    omega

/-- A thread that has gone to sleep under a key is expired at just the clock values that have
reached the key. -/
theorem expires_iff (hinv : s₁.Inv) (hb : s₁.b.state t = .blocked) {key now : ℕ}
    (hmem : ∃ e ∈ s₁.b.timers, e.thread = t ∧ e.key = key)
    (honly : ∀ e ∈ s₁.b.timers, e.thread = t → e.key = key) (hnow : now < wordSize) :
    (∃ as s', run step s₁ as = some s' ∧ Guarded step Steady s₁ as ∧ s'.b.log t = s₁.b.log t ∧
      s'.Expires t ∧ s'.clock = now) ↔ s₁.clock ≤ now ∧ key ≤ now := by
  constructor
  · rintro ⟨as, s', hrun, hg, hlog, hexp, rfl⟩
    obtain ⟨-, hkeeps, hclock⟩ := run_keeps hinv hg hrun
    obtain ⟨e, he, ht, hdue⟩ := due_of_checkLoop s'.clock hexp.1 hexp.2
    exact ⟨hclock, honly e (hkeeps.timers e he (ht ▸ hlog)) ht ▸ hdue⟩
  · rintro ⟨hle, hkey⟩
    obtain ⟨e, he, rfl, rfl⟩ := hmem
    obtain ⟨hrun, hg⟩ := run_ticks (now - s₁.clock) s₁ (by omega)
    refine ⟨_, _, hrun, hg, rfl, ⟨hb, ?_⟩, by dsimp only; omega⟩
    exact checkLoop_of_due (hkey.trans (by dsimp only; omega)) hinv.sorted he

omit [DecidableEq κ] in
/-- A clock that has reached the key has advanced by the duration, if the key is a clock value and
not the duration. -/
theorem key_late_iff {now : ℕ} (hnow : now < wordSize) (hc : 0 < c.duration) :
    (∀ now' < wordSize, now ≤ now' → key now c ≤ now' → now + c.duration ≤ now') ↔
      (∃ usecs, c = .usleep usecs ∧ now + usecs.toNat < wordSize) ∨ now = 0 := by
  have hlt := c.duration_lt
  have hrelative (hkey : key now c = c.duration) :
      (∀ now' < wordSize, now ≤ now' → key now c ≤ now' → now + c.duration ≤ now') ↔ now = 0 := by
    rw [hkey]
    constructor
    · intro h
      have := h (max now c.duration) (by omega) (by omega) (by omega)
      omega
    · intro h now' _ _ hdue
      omega
  cases c with
  | usleep usecs =>
    by_cases hsum : now + usecs.toNat < wordSize
    · refine iff_of_true (fun now' _ _ hdue => ?_) (.inl ⟨usecs, rfl, hsum⟩)
      rwa [key, wadd_of_lt hsum] at hdue
    · -- the key has wrapped round, so the thread is due at once
      have hwrap : key now (.usleep usecs : TimedCall κ) ≤ now := by
        dsimp only [key, wadd, TimedCall.duration, wordSize] at *
        omega
      refine iff_of_false (fun h => ?_) ?_
      · have := h now hnow le_rfl hwrap
        omega
      · rintro (⟨_, heq, hlt'⟩ | rfl)
        · cases heq
          exact hsum hlt'
        · exact hsum (by rwa [Nat.zero_add])
  | cdiSleepMs | semWait | mboxFetch =>
    rw [hrelative rfl]
    refine ⟨.inr, ?_⟩
    rintro (⟨_, heq, _⟩ | h)
    · cases heq
    · exact h

/-- **Only `usleep` waits for its duration.**  After a call with a duration that blocks, the thread
is expired only when the clock has advanced by that duration, in every run in which the clock does
not wrap round, if and only if the call is `usleep` and the sum is a word, or the clock is still at
zero: the other calls enter the duration itself into the queue. -/
theorem expires_late_iff {avail : κ → ℕ} {as₀ : List (Action κ τ)}
    (hreach : run step (init avail) as₀ = some s) (hs : s.step (.call t c) = some s₁)
    (hb : s₁.b.state t = .blocked) (hc : 0 < c.duration) :
    (∀ as s', run step s₁ as = some s' → Guarded step Steady s₁ as → s'.b.log t = s₁.b.log t →
      s'.Expires t → s.clock + c.duration ≤ s'.clock) ↔
      (∃ usecs, c = .usleep usecs ∧ s.clock + usecs.toNat < wordSize) ∨ s.clock = 0 := by
  have hinv : s.Inv := invariant (fun h hs => h.step hs) (inv_init avail) hreach
  obtain ⟨hclock, hmem, honly⟩ := call_timers hinv hs hb hc
  have hexp {now : ℕ} (hnow : now < wordSize) := expires_iff (hinv.step hs) hb hmem honly hnow
  have hrange :
      (∀ as s', run step s₁ as = some s' → Guarded step Steady s₁ as → s'.b.log t = s₁.b.log t →
      s'.Expires t → s.clock + c.duration ≤ s'.clock) ↔ ∀ now < wordSize, s.clock ≤ now →
      key s.clock c ≤ now → s.clock + c.duration ≤ now := by
    constructor
    · intro h now hnow hle hkey
      obtain ⟨as, s', hrun, hg, hlog, hexp, rfl⟩ := (hexp hnow).mpr ⟨hclock.trans_le hle, hkey⟩
      exact h as s' hrun hg hlog hexp
    · intro h as s' hrun hg hlog hexp'
      have hnow := (run_keeps (hinv.step hs) hg hrun).1.clock
      obtain ⟨hle, hkey⟩ := (hexp hnow).mp ⟨as, s', hrun, hg, hlog, hexp', rfl⟩
      exact h s'.clock hnow (hclock.symm.trans_le hle) hkey
  rw [hrange, key_late_iff hinv.clock hc]

/-- At clock value 2, a sleep of five ticks. -/
theorem expires_late_iff_usleep : ∃ s s₁ : Sleeps Unit (Fin 1),
    (run step (init fun _ => 0) [.tick, .tick] = some s ∧ s.step (.call 0 (.usleep 5)) = some s₁ ∧
      s₁.b.state 0 = .blocked) ∧
      ∀ as s', run step s₁ as = some s' → Guarded step Steady s₁ as → s'.b.log 0 = s₁.b.log 0 →
        s'.Expires 0 → s.clock + 5 ≤ s'.clock := by
  have hreach : run step (init fun _ => 0 : Sleeps Unit (Fin 1)) [.tick, .tick] =
      some ⟨2, Blocking.init, _⟩ := rfl
  exact ⟨_, _, ⟨hreach, rfl, rfl⟩,
    (expires_late_iff hreach rfl rfl (by decide)).mpr (.inl ⟨5, rfl, by decide⟩)⟩

/-- At clock value 2, a thread that sleeps for one tick is due at once. -/
theorem cdiSleepMs_early : ∃ s s₁ : Sleeps Unit (Fin 1),
    run step (init fun _ => 0) [.tick, .tick] = some s ∧
      s.step (.call 0 (.cdiSleepMs 1)) = some s₁ ∧ s₁.Expires 0 ∧ s₁.clock < s.clock + 1 :=
  ⟨_, _, rfl, rfl, ⟨rfl, by decide⟩, by decide⟩

end Sleeps

end Kos

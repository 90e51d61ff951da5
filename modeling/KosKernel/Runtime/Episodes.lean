import Mathlib.Data.List.Nodup
import KosKernel.Lib.Runs
import KosKernel.Runtime.Blocking

/-!
# Runtime/Episodes — every blocking episode ends once

The life of a thread as seen from outside is a cycle: it blocks, one call wins it, that call makes
it ready, and it goes on.  `Phase` is this cycle, with the stages of the winning call; `At` says
what the queues, the claims and the state of a thread look like in each phase, and every step of the
system moves one thread along the cycle and leaves the others where they are (`Frame`).
-/

namespace Kos

open Function Runs

/-! ## The cycle -/

/-- What the events of a thread have to be, one after another. -/
inductive Ep
  | out
  | blocked
  | claimed (w : Winner)
  | ready (w : Winner)
  | gone
  deriving DecidableEq

/-- A blocking episode has one winner and one wake-up; `suspend` returns true if and only if the
winner is `resume`, and not at all if it is `cancel`. -/
def Ep.step : Ep → Event → Option Ep
  | .out, .start => some .blocked
  | .blocked, .won w => some (.claimed w)
  | .claimed w, .woken => some (.ready w)
  | .ready w, .returned r =>
    if w ≠ .cancel ∧ (r = none ∨ r = some (decide (w = .resume))) then some .out else none
  | .out, .terminated => some .gone
  | .ready _, .terminated => some .gone
  | _, _ => none

/-- Where a thread is in the cycle, with the stage of the call that has won it. -/
inductive Phase
  | out
  | blocked
  | claimed (w : Winner) (stage : Stage)
  | ready (w : Winner)
  | gone
  deriving DecidableEq

variable {stage : Stage}

namespace Phase

variable {τ : Type}

def ep : Phase → Ep
  | out => .out
  | blocked => .blocked
  | claimed w _ => .claimed w
  | ready w => .ready w
  | gone => .gone

def pc : Phase → Where
  | out => .out
  | blocked | claimed _ _ => .suspended
  | ready _ => .ready
  | gone => .gone

/-- The call that ended the episode, until the thread goes on. -/
def winner : Phase → Option Winner
  | claimed w _ | ready w => some w
  | _ => none

/-- The thread is in its blocking queue, if it has one. -/
def linked : Phase → Bool
  | blocked => true
  | claimed w stage => decide (w ≠ .resume ∧ stage ≠ .wake)
  | _ => false

/-- The thread is in the timeout queue, if it has a timeout. -/
def timed : Phase → Bool
  | blocked => true
  | claimed _ stage => decide (stage = .cancelTimeout)
  | _ => false

/-- The value of `timedOut` for a thread in a blocking queue. -/
def timedOut : Phase → Option Bool
  | blocked => some false
  | claimed w stage => some (decide (w ≠ .resume ∧ (stage = .unlink ∨ stage = .wake)))
  | ready w => some (decide (w ≠ .resume))
  | _ => none

/-- The claims on the thread. -/
def claims (t : τ) : Phase → List (Claim τ)
  | claimed w stage => [⟨t, w, stage⟩]
  | _ => []

/-- `resume` does not call `cancelBlocking`. -/
def legal : Phase → Prop
  | claimed .resume stage => stage = .cancelTimeout ∨ stage = .wake
  | _ => True

/-- `resume` has chosen the thread, and it has not gone on yet. -/
def granted : Phase → Bool
  | claimed .resume _ | ready .resume => true
  | _ => false

/-- The phase after a step of the winning call. -/
def next : Phase → Phase
  | claimed w .wake => ready w
  | claimed w stage => claimed w (w.next stage)
  | p => p

theorem next_granted (p : Phase) : p.next.granted = p.granted := by
  cases p with
  | claimed w stage => cases w <;> cases stage <;> rfl
  | out | blocked | ready | gone => rfl

theorem next_ne_blocked {w : Winner} : (claimed w stage).next ≠ blocked := by
  cases stage <;> exact Phase.noConfusion

theorem next_eq_out {p : Phase} : p.next = out ↔ p = out := by
  cases p with
  | claimed w stage => cases stage <;> simp [next]
  | out | blocked | ready | gone => rfl

end Phase

namespace Blocking

variable {κ τ : Type} [DecidableEq τ]

/-- What the events of the thread `t` amount to, if they follow the cycle. -/
def ep (b : Blocking κ τ) (t : τ) : Option Ep := run Ep.step .out (b.log t)

/-- `resume` has chosen the thread, and it has not gone on yet. -/
def Granted (b : Blocking κ τ) (t : τ) : Prop :=
  b.ep t = some (.claimed .resume) ∨ b.ep t = some (.ready .resume)

instance (b : Blocking κ τ) (t : τ) : Decidable (b.Granted t) := inferInstanceAs (Decidable (_ ∨ _))

/-! ## The phase of one thread -/

/-- The thread `t` is in the phase `p`. -/
structure At (b : Blocking κ τ) (t : τ) (p : Phase) : Prop where
  legal : p.legal
  pc : b.pc t = p.pc
  blocked : b.state t = .blocked ↔ p = .blocked
  cancelled : p.winner = some .cancel → b.state t = .cancelled
  resumed : p.winner = some .resume → (b.info t).queue.isSome = true
  timedOut : ∀ v, p.timedOut = some v → (b.info t).timedOut = (v && (b.info t).queue.isSome)
  calls : b.calls.filter (·.thread = t) = p.claims t
  linked : ∀ k, t ∈ b.queue k ↔ p.linked = true ∧ (b.info t).queue = some k
  timed : ∀ n, (∃ e ∈ b.timers, e.id = n ∧ e.thread = t) ↔
    p.timed = true ∧ (b.info t).titer = some n
  log : b.ep t = some p.ep

/-- What holds of the queues as a whole. -/
structure Queues (b : Blocking κ τ) : Prop where
  nodup : ∀ k, (b.queue k).Nodup
  fresh : ∀ e ∈ b.timers, e.id < b.fresh
  inj : ∀ e ∈ b.timers, ∀ e' ∈ b.timers, e.id = e'.id → e.thread = e'.thread

/-- **The invariant**: every thread is in its phase. -/
structure Rep (b : Blocking κ τ) (ph : τ → Phase) : Prop where
  queues : b.Queues
  at_ : ∀ t, b.At t (ph t)

/-- Nothing of the thread `u` differs between `b` and `b'`. -/
structure Frame (b b' : Blocking κ τ) (u : τ) : Prop where
  state : b'.state u = b.state u
  pc : b'.pc u = b.pc u
  info : b'.info u = b.info u
  log : b'.log u = b.log u
  calls : b'.calls.filter (·.thread = u) = b.calls.filter (·.thread = u)
  queue : ∀ k, u ∈ b'.queue k ↔ u ∈ b.queue k
  timers : ∀ e : Timer τ, e.thread = u → (e ∈ b'.timers ↔ e ∈ b.timers)

variable {b b' : Blocking κ τ} {ph : τ → Phase} {t u : τ} {p : Phase} {c : Claim τ} {k : κ}

theorem At.frame (h : b.At u p) (hf : Frame b b' u) : b'.At u p where
  legal := h.legal
  pc := hf.pc.trans h.pc
  blocked := by rw [hf.state]; exact h.blocked
  cancelled := by rw [hf.state]; exact h.cancelled
  resumed := by rw [hf.info]; exact h.resumed
  timedOut := by rw [hf.info]; exact h.timedOut
  calls := hf.calls.trans h.calls
  linked k := by rw [hf.info, hf.queue]; exact h.linked k
  timed n := by
    rw [hf.info, ← h.timed n]
    constructor
    · rintro ⟨e, he, hn, ht⟩
      exact ⟨e, (hf.timers e ht).mp he, hn, ht⟩
    · rintro ⟨e, he, hn, ht⟩
      exact ⟨e, (hf.timers e ht).mpr he, hn, ht⟩
  log := by rw [ep, hf.log]; exact h.log

/-- **Moving one thread**: it is in its new phase, and nothing of the others differs. -/
theorem Rep.move (h : Rep b ph) (hq : b'.Queues) (ht : b'.At t p) (hf : ∀ u, u ≠ t → Frame b b' u) :
    Rep b' (update ph t p) where
  queues := hq
  at_ u := by
    by_cases hu : u = t
    · subst hu
      rwa [update_self]
    · rw [update_of_ne hu]
      exact (h.at_ u).frame (hf u hu)

theorem ep_note {e e' : Ep} {x : Event} (h : b.ep t = some e) (hx : e.step x = some e') :
    run Ep.step .out (b.note t x t) = some e' := by
  rw [note, update_self]
  exact run_append.mpr ⟨e, h, run_cons.mpr ⟨e', hx, run_nil.mpr rfl⟩⟩

theorem note_of_ne {x : Event} (hu : u ≠ t) : b.note t x u = b.log u := update_of_ne hu _ _

/-- The phase of a thread that a call has won is that of its claim. -/
theorem At.eq_claimed (h : b.At c.thread p) (hc : c ∈ b.calls) : p = .claimed c.winner c.stage := by
  have hmem : c ∈ p.claims c.thread := by
    rw [← h.calls]
    exact List.mem_filter.mpr ⟨hc, by simp⟩
  cases p with
  | claimed w stage =>
    have hcl : c = ⟨c.thread, w, stage⟩ := List.mem_singleton.mp hmem
    exact congrArg (fun c => Phase.claimed c.winner c.stage) hcl.symm
  | out | blocked | ready | gone => cases hmem

theorem At.granted_iff (h : b.At t p) : b.Granted t ↔ p.granted = true := by
  rw [Granted, h.log]
  cases p with
  | claimed w | ready w => cases w <;> simp [Phase.ep, Phase.granted]
  | out | blocked | gone => simp [Phase.ep, Phase.granted]

/-! ## The queues -/

variable {e : Timer τ}

omit [DecidableEq τ] in
@[simp] theorem mem_insertTimer {e' : Timer τ} {l : List (Timer τ)} : e ∈ insertTimer e' l ↔
      e = e' ∨ e ∈ l := by
  have h : e ∈ l ↔ e ∈ l.takeWhile (·.key ≤ e'.key) ∨ e ∈ l.dropWhile (·.key ≤ e'.key) := by
    rw [← List.mem_append, List.takeWhile_append_dropWhile]
  rw [insertTimer, List.mem_append, List.mem_cons, h]
  exact or_left_comm

variable {q : Option κ}

omit [DecidableEq τ] in
@[simp] theorem mem_link [DecidableEq κ] : u ∈ b.link t q k ↔ u ∈ b.queue k ∨ q = some k ∧
      u = t := by
  cases q with
  | none => simp [link]
  | some k' =>
    by_cases hk : k = k'
    · subst hk
      simp [link]
    · simp [link, update_of_ne hk, Ne.symm hk]

theorem mem_unlink [DecidableEq κ] (hq : (b.queue k).Nodup) :
    u ∈ b.unlink t q k ↔ u ∈ b.queue k ∧ ¬(q = some k ∧ u = t) := by
  cases q with
  | none => simp [unlink]
  | some k' =>
    by_cases hk : k = k'
    · subst hk
      simp [unlink, hq.mem_erase_iff, and_comm]
    · simp [unlink, update_of_ne hk, Ne.symm hk]

theorem nodup_unlink [DecidableEq κ] (h : ∀ k, (b.queue k).Nodup) (k : κ) :
    (b.unlink t q k).Nodup := by
  cases q with
  | none => exact h k
  | some k' =>
    by_cases hk : k = k'
    · subst hk
      simp only [unlink, update_self]
      exact (h k).erase t
    · simp only [unlink, update_of_ne hk]
      exact h k

variable {n : ℕ}

omit [DecidableEq τ] in
@[simp] theorem mem_eraseTimer : e ∈ b.eraseTimer n ↔ e ∈ b.timers ∧ e.id ≠ n := by
  simp [eraseTimer]

theorem filter_append_claim {l : List (Claim τ)} :
    (l ++ [c]).filter (·.thread = u) = l.filter (·.thread = u) ++ if c.thread = u then [c]
      else [] := by
  rw [List.filter_append]
  congr 1
  split
  · simpa [List.filter_cons]
  · simpa [List.filter_cons]

/-! ## The steps -/

/-- The entries of the timeout queue after `suspend`. -/
theorem mem_timers_suspend [DecidableEq κ] {w : Wait κ} (hrun : b.state t = .running) :
    e ∈ (b.suspend t w).timers ↔ e ∈ b.timers ∨ ∃ key, w.key = some key ∧
      e = ⟨b.fresh, key, t⟩ := by
  simp only [suspend, if_pos hrun]
  cases w.key with
  | none => simp
  | some key => simp [or_comm]

theorem Queues.suspend [DecidableEq κ] (h : b.Queues) (w : Wait κ) (hrun : b.state t = .running)
    (hnot : ∀ k, t ∉ b.queue k) : (b.suspend t w).Queues where
  nodup k := by
    simp only [Blocking.suspend, if_pos hrun]
    cases w.queue with
    | none => exact h.nodup k
    | some k' =>
      by_cases hk : k = k'
      · subst hk
        simp only [link, update_self]
        exact (h.nodup k).append (List.nodup_singleton t) (by simpa using hnot k)
      · simp only [link, update_of_ne hk]
        exact h.nodup k
  fresh e he := by
    have hfresh : (b.suspend t w).fresh = b.fresh + 1 := by
      simp only [Blocking.suspend, if_pos hrun]
    rw [hfresh]
    obtain he | ⟨key, -, rfl⟩ := (mem_timers_suspend hrun).mp he
    · exact Nat.lt_succ_of_lt (h.fresh e he)
    · exact Nat.lt_succ_self _
  inj e he e' he' hid := by
    obtain he | ⟨key, -, rfl⟩ := (mem_timers_suspend hrun).mp he <;>
      obtain he' | ⟨key', -, rfl⟩ := (mem_timers_suspend hrun).mp he'
    · exact h.inj e he e' he' hid
    · exact absurd hid (Nat.ne_of_lt (h.fresh e he))
    · exact absurd hid (Nat.ne_of_gt (h.fresh e' he'))
    · rfl

theorem At.suspend [DecidableEq κ] (h : b.At t .out) (w : Wait κ) (hrun : b.state t = .running) :
    (b.suspend t w).At t .blocked where
  legal := trivial
  pc := by simp [Blocking.suspend, hrun, Phase.pc]
  blocked := by simp [Blocking.suspend, hrun]
  cancelled := by simp [Phase.winner]
  resumed := by simp [Phase.winner]
  timedOut v hv := by
    cases hv
    simp [Blocking.suspend, hrun]
  calls := by
    simp only [Blocking.suspend, if_pos hrun]
    exact h.calls
  linked k := by
    have hnot : t ∉ b.queue k := fun hk => Bool.false_ne_true ((h.linked k).mp hk).1
    simp [Blocking.suspend, hrun, hnot, Phase.linked]
  timed n := by
    simp only [mem_timers_suspend hrun]
    simp only [Blocking.suspend, if_pos hrun, update_self, Phase.timed, true_and]
    constructor
    · rintro ⟨e, he | ⟨key, hkey, rfl⟩, hn, ht⟩
      · exact absurd ((h.timed n).mp ⟨e, he, hn, ht⟩).1 Bool.false_ne_true
      · rw [hkey, ← hn]
        rfl
    · intro hn
      obtain ⟨key, hkey, hn⟩ := Option.map_eq_some_iff.mp hn
      exact ⟨⟨b.fresh, key, t⟩, .inr ⟨key, hkey, rfl⟩, hn, rfl⟩
  log := by
    simp only [ep, Blocking.suspend, if_pos hrun]
    exact ep_note h.log rfl

theorem Frame.suspend [DecidableEq κ] (w : Wait κ) (hrun : b.state t = .running) (hu : u ≠ t) :
    Frame b (b.suspend t w) u where
  state := by simp [Blocking.suspend, hrun, hu]
  pc := by simp [Blocking.suspend, hrun, hu]
  info := by simp [Blocking.suspend, hrun, hu]
  log := by simp [Blocking.suspend, hrun, note_of_ne hu]
  calls := by simp [Blocking.suspend, hrun]
  queue k := by simp [Blocking.suspend, hrun, hu]
  timers e he := by
    rw [mem_timers_suspend hrun]
    constructor
    · rintro (h | ⟨key, -, rfl⟩)
      · exact h
      · exact absurd he.symm hu
    · exact .inl

theorem Rep.suspend [DecidableEq κ] (h : Rep b ph) (w : Wait κ) (hout : ph t = .out)
    (hrun : b.state t = .running) : Rep (b.suspend t w) (update ph t .blocked) := by
  have hat : b.At t .out := hout ▸ h.at_ t
  have hnot : ∀ k, t ∉ b.queue k := fun k hk => Bool.false_ne_true ((hat.linked k).mp hk).1
  exact h.move (h.queues.suspend w hrun hnot) (hat.suspend w hrun) fun _ => .suspend w hrun

/-- `block` makes the thread wait, or changes nothing. -/
theorem Rep.block [DecidableEq κ] (h : Rep b ph) (hout : ph t = .out) (k : κ) (timeout : ℕ) :
    (b.block t k timeout).1 = true ∧ Rep (b.block t k timeout).2 (update ph t .blocked) ∨
      (b.block t k timeout).1 = false ∧ (b.block t k timeout).2 = b := by
  rw [Blocking.block]
  cases waitFor k timeout with
  | none => exact .inr ⟨rfl, rfl⟩
  | some w =>
    by_cases hrun : b.state t = .running
    · exact .inl ⟨decide_eq_true hrun, h.suspend w hout hrun⟩
    · exact .inr ⟨decide_eq_false hrun, if_neg hrun⟩

/-- A thread that `block` makes wait is in the queue. -/
theorem block_queue [DecidableEq κ] {timeout : ℕ} (h : (b.block t k timeout).1 = true) (u : τ) :
    ((b.block t k timeout).2.info u).queue = if u = t then some k else (b.info u).queue := by
  have hw : ∀ w, waitFor k timeout = some w → w.queue = some k := by
    intro w hw
    rw [waitFor] at hw
    split at hw
    · exact Option.some.inj hw ▸ rfl
    · obtain ⟨-, hw⟩ := Option.ite_none_right_eq_some.mp hw
      exact Option.some.inj hw ▸ rfl
  rw [Blocking.block] at h ⊢
  cases hwait : waitFor k timeout with
  | none =>
    rw [hwait] at h
    cases h
  | some w =>
    rw [hwait] at h
    simp only [Blocking.suspend, if_pos (of_decide_eq_true h), update_apply]
    split
    · exact hw w hwait
    · rfl

/-! ### Winning

The winner takes a thread that is `Blocked`.  What it takes the thread out of at once differs, so
the queues after the step are a parameter: they are the old ones, without `t` where the new phase
says so. -/

theorem Rep.claim (h : Rep b ph) (hb : ph t = .blocked) {s : ThreadState} {w : Winner}
    {q : κ → List τ} {l : List (Timer τ)} (hs : s ≠ .blocked)
    (hcancel : w = .cancel → s = .cancelled)
    (hresume : w = .resume → (b.info t).queue.isSome = true)
    (hlegal : (Phase.claimed w stage).legal) (hstage : stage = .cancelTimeout ∨ stage = .timedOut)
    (hnodup : ∀ k, (q k).Nodup)
    (hq : ∀ k u, u ∈ q k ↔ u ∈ b.queue k ∧ (u = t → (Phase.claimed w stage).linked = true))
    (hts : ∀ e, e ∈ l ↔ e ∈ b.timers ∧ (e.thread = t → (Phase.claimed w stage).timed = true)) :
    Rep { b.claim t s w stage with queue := q, timers := l } (update ph t (.claimed w stage)) := by
  have hat : b.At t .blocked := hb ▸ h.at_ t
  refine h.move (t := t) ?_ ?_ fun u hu => ?_
  · exact ⟨hnodup, fun e he => h.queues.fresh e ((hts e).mp he).1, fun e he e' he' =>
      h.queues.inj e ((hts e).mp he).1 e' ((hts e').mp he').1⟩
  · refine ⟨hlegal, hat.pc, ?_, ?_, fun hw => hresume (Option.some.inj hw), ?_, ?_, fun k => ?_,
      fun n => ?_, ?_⟩
    · simp [Blocking.claim, hs]
    · intro hw
      simp [Blocking.claim, hcancel (Option.some.inj hw)]
    · intro v hv
      have hfalse : v = false := by
        cases hv
        obtain rfl | rfl := hstage <;> simp
      rw [hfalse]
      exact hat.timedOut false rfl
    · simp only [Blocking.claim, filter_append_claim, hat.calls]
      simp [Phase.claims]
    · show t ∈ q k ↔ _
      rw [hq, hat.linked k]
      simp [Phase.linked, and_comm, Blocking.claim]
    · show (∃ e ∈ l, _) ↔ _
      have hlive := hat.timed n
      constructor
      · rintro ⟨e, he, hn, ht⟩
        exact ⟨((hts e).mp he).2 ht, (hlive.mp ⟨e, ((hts e).mp he).1, hn, ht⟩).2⟩
      · rintro ⟨htimed, hn⟩
        obtain ⟨e, he, hid, ht⟩ := hlive.mpr ⟨rfl, hn⟩
        exact ⟨e, (hts e).mpr ⟨he, fun _ => htimed⟩, hid, ht⟩
    · exact ep_note hat.log rfl
  · refine ⟨update_of_ne hu _ _, rfl, rfl, note_of_ne hu, ?_, fun k => ?_, fun e he => ?_⟩
    · simp only [Blocking.claim, filter_append_claim, if_neg (Ne.symm hu), List.append_nil]
    · exact (hq k u).trans (and_iff_left fun hut => absurd hut hu)
    · exact (hts e).trans (and_iff_left fun het => absurd (he.symm.trans het) hu)

/-- The scan of `resume` finds a thread of the queue that is `Blocked`. -/
theorem Rep.firstBlocked (h : Rep b ph) (hf : b.firstBlocked k = some t) :
    ph t = .blocked ∧ t ∈ b.queue k := by
  have hb : decide (b.state t = .blocked) = true :=
    List.find?_some (p := fun u => decide (b.state u = .blocked)) hf
  exact ⟨(h.at_ t).blocked.mp (of_decide_eq_true hb), List.mem_of_find?_eq_some hf⟩

/-- If the scan finds nobody, no thread of the queue is `Blocked`. -/
theorem Rep.not_blocked (h : Rep b ph) (hf : b.firstBlocked k = none)
    (hk : (b.info t).queue = some k) : ph t ≠ .blocked := by
  intro hb
  have hat : b.At t .blocked := hb ▸ h.at_ t
  have hnot := List.find?_eq_none.mp hf t ((hat.linked k).mpr ⟨rfl, hk⟩)
  exact hnot (decide_eq_true (hat.blocked.mpr rfl))

theorem Rep.resumeThread [DecidableEq κ] (h : Rep b ph) (hf : b.firstBlocked k = some t) :
    Rep (b.resumeThread k t) (update ph t (.claimed .resume .cancelTimeout)) := by
  obtain ⟨hb, hmem⟩ := h.firstBlocked hf
  have hat : b.At t .blocked := hb ▸ h.at_ t
  have hk : (b.info t).queue = some k := ((hat.linked k).mp hmem).2
  refine h.claim (q := b.unlink t (some k)) (l := b.timers) hb (by decide) (by decide)
    (fun _ => by rw [hk]; rfl) (.inl rfl) (.inl rfl) (nodup_unlink h.queues.nodup) (fun k' u => ?_)
      (fun e => ?_)
  · rw [mem_unlink (h.queues.nodup k')]
    refine and_congr_right fun hu => ?_
    constructor
    · intro hne hut
      have hk' : (b.info t).queue = some k' := ((hat.linked k').mp (hut ▸ hu)).2
      exact absurd ⟨hk.symm.trans hk', hut⟩ hne
    · intro hl hut
      exact absurd (hl hut.2) (by decide)
  · simp [Phase.timed]

/-- An entry of the timeout queue belongs to the present episode of its thread. -/
theorem Rep.titer (h : Rep b ph) (he : e ∈ b.timers) :
    (b.info e.thread).titer = some e.id := (((h.at_ e.thread).timed e.id).mp ⟨e, he, rfl, rfl⟩).2

/-- Erasing an entry of the timeout queue erases the entry of its thread. -/
theorem Rep.eraseTimer (h : Rep b ph) (hn : (b.info t).titer = some n) (ht : (ph t).timed = true)
    (e : Timer τ) : e ∈ b.eraseTimer n ↔ e ∈ b.timers ∧ e.thread ≠ t := by
  rw [mem_eraseTimer]
  refine and_congr_right fun he => not_congr ⟨fun hid => ?_, fun hthread => ?_⟩
  · obtain ⟨e', he', hid', hthread'⟩ := ((h.at_ t).timed n).mpr ⟨ht, hn⟩
    exact (h.queues.inj e he e' he' (hid.trans hid'.symm)).trans hthread'
  · have htiter := h.titer he
    rw [hthread, hn] at htiter
    exact (Option.some.inj htiter).symm

theorem Rep.expire (h : Rep b ph) (hn : (b.info e.thread).titer = some e.id)
    (hb : b.state e.thread = .blocked) :
    Rep (b.expire e) (update ph e.thread (.claimed .expiry .timedOut)) := by
  have hph : ph e.thread = .blocked := (h.at_ e.thread).blocked.mp hb
  rw [Blocking.expire, if_pos hb]
  refine h.claim (q := b.queue) hph (by decide) (by decide) nofun trivial (.inr rfl) h.queues.nodup
    (fun k u => ?_) (fun e' => ?_)
  · simp [Phase.linked]
  · rw [h.eraseTimer hn (by rw [hph]; rfl)]
    simp [Phase.timed]

/-- Some threads that were `Blocked` have timed out. -/
def Expired (ph ph' : τ → Phase) : Prop :=
  ∀ t, ph' t = ph t ∨ ph t = .blocked ∧ ph' t = .claimed .expiry .timedOut

/-- The loop of `checkExpiry`: its iterators stay valid, since a thread that it skips is not
`Blocked`. -/
theorem Rep.checkLoop (now : ℕ) : ∀ (es : List (Timer τ)) {b : Blocking κ τ} {ph : τ → Phase},
    Rep b ph → (∀ e ∈ es, (b.info e.thread).titer = some e.id) →
      ∃ ph', Rep (checkLoop now es b) ph' ∧ Expired ph ph'
  | [], _, ph, h, _ => ⟨ph, h, fun _ => .inl rfl⟩
  | e :: es, b, ph, h, hes => by
    rw [Blocking.checkLoop]
    split
    · have hes' : ∀ e' ∈ es, (b.info e'.thread).titer = some e'.id := fun e' he' =>
        hes e' (List.mem_cons_of_mem e he')
      by_cases hb : b.state e.thread = .blocked
      · have hinfo : (b.expire e).info = b.info := by simp only [Blocking.expire, if_pos hb]; rfl
        obtain ⟨ph', hrep, hexp⟩ := Rep.checkLoop now es (h.expire (hes e List.mem_cons_self) hb)
          (by rwa [hinfo])
        refine ⟨ph', hrep, fun t => ?_⟩
        by_cases ht : t = e.thread
        · have hph : ph t = .blocked := ht ▸ (h.at_ e.thread).blocked.mp hb
          have hexp := hexp t
          rw [ht, update_self, ← ht] at hexp
          obtain hexp | hexp := hexp
          · exact .inr ⟨hph, hexp⟩
          · exact absurd hexp.1 (by decide)
        · have hexp := hexp t
          rwa [update_of_ne ht] at hexp
      · have hskip : b.expire e = b := if_neg hb
        rw [hskip]
        exact Rep.checkLoop now es h hes'
    · exact ⟨ph, h, fun _ => .inl rfl⟩

theorem Rep.checkExpiry (h : Rep b ph) (now : ℕ) :
    ∃ ph', Rep (b.checkExpiry now) ph' ∧ Expired ph ph' :=
  Rep.checkLoop now b.timers h fun _ => h.titer

theorem Rep.cancel (h : Rep b ph) (t : τ) : ∃ ph', Rep (b.cancel t) ph' ∧
    (ph' = ph ∨ ph t = .blocked ∧ ph' = update ph t (.claimed .cancel .cancelTimeout)) := by
  by_cases hb : b.state t = .blocked
  · have hph : ph t = .blocked := (h.at_ t).blocked.mp hb
    rw [Blocking.cancel, if_pos hb]
    refine ⟨_, h.claim (q := b.queue) (l := b.timers) hph (by decide) (fun _ => rfl) nofun trivial
      (.inl rfl) h.queues.nodup (fun k u => ?_) (fun e => ?_), .inr ⟨hph, rfl⟩⟩
    · simp [Phase.linked]
    · simp [Phase.timed]
  · rw [Blocking.cancel, if_neg hb]
    refine ⟨ph, ⟨{ h.queues with }, fun u => ?_⟩, .inl rfl⟩
    obtain ⟨hlegal, hpc, hblocked, hcancelled, hresumed, htimedOut, hcalls, hlinked, htimed,
        hlog⟩ := h.at_ u
    refine ⟨hlegal, hpc, ?_, ?_, hresumed, htimedOut, hcalls, hlinked, htimed, hlog⟩
    · by_cases hu : u = t
      · subst hu
        simp [setState, ← hblocked, hb]
      · simpa [setState, hu] using hblocked
    · by_cases hu : u = t
      · subst hu
        simp [setState]
      · simpa [setState, hu] using hcancelled

/-! ### After winning -/

theorem filter_erase_claim (h : b.At u p) (hc : c ∈ b.calls) :
    (b.calls.erase c).filter (·.thread = u) = if c.thread = u then [] else p.claims u := by
  rw [← List.erase_filter, h.calls]
  split
  · have hu : c.thread = u := ‹_›
    subst hu
    rw [h.eq_claimed hc, Phase.claims, List.erase_cons_head]
  · have hnot : c ∉ p.claims u := by
      rw [← h.calls, List.mem_filter]
      simpa using fun _ => ‹¬c.thread = u›
    rw [List.erase_of_not_mem hnot]

theorem filter_proceed (h : b.At u p) (hc : c ∈ b.calls) : (b.proceed c).filter (·.thread = u) =
    if c.thread = u then [{ c with stage := c.winner.next c.stage }] else p.claims u := by
  rw [proceed, filter_append_claim, filter_erase_claim h hc]
  split
  · rfl
  · exact List.append_nil _

/-- A claim goes on, but does not wake the thread yet.  As in `Rep.claim`, the queues after the step
are a parameter, and here the `UnblockInfo` also. -/
theorem Rep.proceed (h : Rep b ph) (hc : c ∈ b.calls) (hwake : c.stage ≠ .wake)
    {info : τ → UnblockInfo κ} {q : κ → List τ} {ts : List (Timer τ)}
    (hothers : ∀ u, u ≠ c.thread → info u = b.info u)
    (hqueue : (info c.thread).queue = (b.info c.thread).queue)
    (htiter : (info c.thread).titer = (b.info c.thread).titer)
    (htimedOut : ∀ v, (Phase.claimed c.winner (c.winner.next c.stage)).timedOut = some v →
      (info c.thread).timedOut = (v && (b.info c.thread).queue.isSome)) (hnodup : ∀ k, (q k).Nodup)
    (hq : ∀ k u, u ∈ q k ↔ u ∈ b.queue k ∧
    (u = c.thread → (Phase.claimed c.winner (c.winner.next c.stage)).linked = true))
    (hts : ∀ e, e ∈ ts ↔ e ∈ b.timers ∧ e.thread ≠ c.thread) :
    Rep { b with calls := b.proceed c, info := info, queue := q, timers := ts }
      (update ph c.thread (.claimed c.winner (c.winner.next c.stage))) := by
  have hat : b.At c.thread (.claimed c.winner c.stage) :=
    (h.at_ c.thread).eq_claimed hc ▸ h.at_ c.thread
  obtain ⟨t, w, stage⟩ := c
  refine h.move (t := t) ?_ ?_ fun u hu => ?_
  · exact ⟨hnodup, fun e he => h.queues.fresh e ((hts e).mp he).1, fun e he e' he' =>
      h.queues.inj e ((hts e).mp he).1 e' ((hts e').mp he').1⟩
  · refine ⟨?_, hat.pc, ?_, hat.cancelled, ?_, ?_, ?_, fun k => ?_, fun n => ?_, hat.log⟩
    · have hlegal := hat.legal
      cases w with
      | resume =>
        obtain rfl | rfl := hlegal
        · exact .inr rfl
        · exact .inr rfl
      | expiry | cancel => trivial
    · simpa using hat.blocked
    · show _ → (info t).queue.isSome = true
      rw [hqueue]
      exact hat.resumed
    · intro v hv
      show (info t).timedOut = (v && (info t).queue.isSome)
      rw [hqueue]
      exact htimedOut v hv
    · exact (filter_proceed hat hc).trans (if_pos rfl)
    · show t ∈ q k ↔ _ ∧ (info t).queue = some k
      rw [hq, hqueue, hat.linked k]
      have hlinked : (Phase.claimed w (w.next stage)).linked = true →
          (Phase.claimed w stage).linked = true := by
        simp only [Phase.linked, decide_eq_true_eq]
        exact fun hl => ⟨hl.1, hwake⟩
      simp only [forall_const]
      constructor
      · exact fun hk => ⟨hk.2, hk.1.2⟩
      · exact fun hk => ⟨⟨hlinked hk.1, hk.2⟩, hk.1⟩
    · have htimed : (Phase.claimed w (w.next stage)).timed = false := by
        cases w <;> cases stage <;> rfl
      simp only [htimed, Bool.false_eq_true, false_and, iff_false]
      rintro ⟨e, he, -, ht⟩
      exact ((hts e).mp he).2 ht
  · refine ⟨rfl, rfl, hothers u hu, rfl, ?_, fun k => ?_, fun e he => ?_⟩
    · rw [(h.at_ u).calls]
      exact (filter_proceed (h.at_ u) hc).trans (if_neg (Ne.symm hu))
    · exact (hq k u).trans (and_iff_left fun hut => absurd hut hu)
    · exact (hts e).trans (and_iff_left (he ▸ hu))

/-- A thread whose claim is past `cancelTimeout` has no entry in the timeout queue. -/
theorem Rep.not_timed (h : Rep b ph) (ht : (ph t).timed = false) (e : Timer τ) :
    e ∈ b.timers ↔ e ∈ b.timers ∧ e.thread ≠ t := by
  refine (and_iff_left_of_imp fun he hthread => ?_).symm
  have htimed := (((h.at_ t).timed e.id).mp ⟨e, he, rfl, hthread⟩).1
  rw [ht] at htimed
  exact Bool.false_ne_true htimed

section Advance

variable [DecidableEq κ] {w : Winner}

theorem Rep.advance_cancelTimeout (h : Rep b ph) (hph : ph t = .claimed w .cancelTimeout)
    (hc : (⟨t, w, .cancelTimeout⟩ : Claim τ) ∈ b.calls) :
    Rep (b.advance ⟨t, w, .cancelTimeout⟩) (update ph t (.claimed w (w.next .cancelTimeout))) := by
  have hat : b.At t (.claimed w .cancelTimeout) := hph ▸ h.at_ t
  refine h.proceed hc (by simp) (fun _ _ => rfl) rfl rfl (fun v hv => ?_) h.queues.nodup
    (fun k u => ?_) (fun e => ?_)
  · refine hat.timedOut v (hv ▸ ?_)
    cases w <;> rfl
  · refine (and_iff_left_of_imp fun hu (hut : u = t) => ?_).symm
    have hlinked := ((hat.linked k).mp (hut ▸ hu)).1
    cases w with
    | resume => exact absurd hlinked (by simp [Phase.linked])
    | expiry | cancel => rfl
  · cases hn : (b.info t).titer with
    | none =>
      refine (and_iff_left_of_imp fun he (hthread : e.thread = t) => ?_).symm
      have htiter := h.titer he
      rw [hthread] at htiter
      exact absurd (htiter.symm.trans hn) (by simp)
    | some n => exact h.eraseTimer hn (by rw [hph]; rfl) e

theorem Rep.advance_timedOut (h : Rep b ph) (hph : ph t = .claimed w .timedOut)
    (hc : (⟨t, w, .timedOut⟩ : Claim τ) ∈ b.calls) :
    Rep (b.advance ⟨t, w, .timedOut⟩) (update ph t (.claimed w (w.next .timedOut))) := by
  have hat : b.At t (.claimed w .timedOut) := hph ▸ h.at_ t
  have hresume : w ≠ .resume := by
    rintro rfl
    exact absurd hat.legal (by simp [Phase.legal])
  refine h.proceed hc (by simp) (fun u hu => update_of_ne hu _ _) ?_ ?_ (fun v hv => ?_)
    h.queues.nodup (fun k u => ?_) (h.not_timed (by rw [hph]; rfl))
  · simp [markTimedOut]
  · simp [markTimedOut]
  · cases hv
    simp [markTimedOut, Winner.next, hresume, hat.timedOut false (by simp [Phase.timedOut])]
  · simp [Phase.linked, Winner.next, hresume]

theorem Rep.advance_unlink (h : Rep b ph) (hph : ph t = .claimed w .unlink)
    (hc : (⟨t, w, .unlink⟩ : Claim τ) ∈ b.calls) :
    Rep (b.advance ⟨t, w, .unlink⟩) (update ph t (.claimed w (w.next .unlink))) := by
  have hat : b.At t (.claimed w .unlink) := hph ▸ h.at_ t
  refine h.proceed hc (by simp) (fun _ _ => rfl) rfl rfl (fun v hv => ?_)
    (nodup_unlink h.queues.nodup) (fun k u => ?_) (h.not_timed (by rw [hph]; rfl))
  · refine hat.timedOut v (hv ▸ ?_)
    simp [Phase.timedOut, Winner.next]
  · rw [mem_unlink (h.queues.nodup k)]
    refine and_congr_right fun hu => ?_
    constructor
    · intro hne (hut : u = t)
      exact absurd ⟨((hat.linked k).mp (hut ▸ hu)).2, hut⟩ hne
    · intro hl hut
      exact absurd (hl hut.2) (by simp [Phase.linked, Winner.next])

/-- `Scheduler::resume`. -/
theorem Rep.advance_wake (h : Rep b ph) (hph : ph t = .claimed w .wake)
    (hc : (⟨t, w, .wake⟩ : Claim τ) ∈ b.calls) :
    Rep (b.advance ⟨t, w, .wake⟩) (update ph t (.ready w)) := by
  have hat : b.At t (.claimed w .wake) := hph ▸ h.at_ t
  have hcalls {u : τ} : (b.advance ⟨t, w, .wake⟩).calls.filter (·.thread = u) =
    if t = u then [] else (ph u).claims u := filter_erase_claim (h.at_ u) hc
  refine h.move { h.queues with } ?_ fun u hu => ?_
  · refine ⟨trivial, update_self _ _ _, ?_, hat.cancelled, hat.resumed, fun v hv => ?_, ?_,
      fun k => ?_, fun n => ?_, ep_note hat.log rfl⟩
    · simpa [Blocking.advance] using hat.blocked
    · refine hat.timedOut v (hv ▸ ?_)
      simp [Phase.timedOut]
    · exact hcalls.trans (if_pos rfl)
    · simpa [Blocking.advance, Phase.linked] using hat.linked k
    · simpa [Blocking.advance, Phase.timed] using hat.timed n
  · refine ⟨rfl, update_of_ne hu _ _, rfl, note_of_ne hu, ?_, fun _ => Iff.rfl,
      fun _ _ => Iff.rfl⟩
    rw [(h.at_ u).calls]
    exact hcalls.trans (if_neg (Ne.symm hu))

/-- **One step of the call that has won a thread.** -/
theorem Rep.advance (h : Rep b ph) (hc : c ∈ b.calls) :
    Rep (b.advance c) (update ph c.thread (ph c.thread).next) := by
  have hph := (h.at_ c.thread).eq_claimed hc
  obtain ⟨t, w, stage⟩ := c
  have hnext : (ph t).next = (Phase.claimed w stage).next := congrArg Phase.next hph
  show Rep _ (update ph t (ph t).next)
  rw [hnext]
  cases stage with
  | cancelTimeout => exact h.advance_cancelTimeout hph hc
  | timedOut => exact h.advance_timedOut hph hc
  | unlink => exact h.advance_unlink hph hc
  | wake => exact h.advance_wake hph hc

end Advance

/-! ### Going on -/

theorem Rep.out (h : Rep b ph) (hpc : b.pc t = .out) : ph t = .out := by
  rw [(h.at_ t).pc] at hpc
  cases hp : ph t with
  | out => rfl
  | blocked | claimed | ready | gone => simp [hp, Phase.pc] at hpc

theorem Rep.ready (h : Rep b ph) (hpc : b.pc t = .ready) : ∃ w, ph t = .ready w := by
  rw [(h.at_ t).pc] at hpc
  cases hp : ph t with
  | ready w => exact ⟨w, rfl⟩
  | out | blocked | claimed | gone => simp [hp, Phase.pc] at hpc

theorem Rep.terminate (h : Rep b ph) (hpc : b.pc t = .out ∨ b.pc t = .ready) :
    Rep (b.terminate t) (update ph t .gone) := by
  have hat := h.at_ t
  have hph : ph t = .out ∨ ∃ w, ph t = .ready w := hpc.imp h.out h.ready
  refine h.move { h.queues with } ?_ fun u hu => ?_
  · refine ⟨trivial, update_self _ _ _, ?_, by simp [Phase.winner], by simp [Phase.winner],
      by simp [Phase.timedOut], ?_, fun k => ?_, fun n => ?_, ?_⟩
    · simp [Blocking.terminate, setState]
    · refine hat.calls.trans ?_
      obtain hp | ⟨w, hp⟩ := hph <;> rw [hp] <;> rfl
    · refine (hat.linked k).trans ?_
      obtain hp | ⟨w, hp⟩ := hph <;> rw [hp] <;> rfl
    · refine (hat.timed n).trans ?_
      obtain hp | ⟨w, hp⟩ := hph <;> rw [hp] <;> rfl
    · obtain hp | ⟨w, hp⟩ := hph
      · exact ep_note hat.log (by rw [hp]; rfl)
      · exact ep_note hat.log (by rw [hp]; rfl)
  · exact ⟨update_of_ne hu _ _, update_of_ne hu _ _, rfl, note_of_ne hu, rfl,
      fun _ => Iff.rfl, fun _ _ => Iff.rfl⟩

/-- The result of `suspend` says who woke the thread. -/
theorem At.result {w : Winner} (h : b.At t (.ready w)) :
    b.result t = none ∨ b.result t = some (decide (w = .resume)) := by
  rw [Blocking.result, h.timedOut _ rfl]
  cases (b.info t).queue with
  | none => exact .inl rfl
  | some k => exact .inr (by simp)

/-- `suspend` returns true if and only if the thread was resumed. -/
theorem At.result_eq_true {w : Winner} (h : b.At t (.ready w)) : b.result t = some true ↔
      w = .resume := by
  rw [Blocking.result, h.timedOut _ rfl]
  cases hq : (b.info t).queue with
  | none =>
    refine iff_of_false (by simp) fun hw => ?_
    have hsome := h.resumed (congrArg some hw)
    rw [hq] at hsome
    exact Bool.false_ne_true hsome
  | some k => simp

theorem dispatch_info : (b.dispatch t).info = b.info := by
  rw [dispatch]
  split <;> rfl

theorem Rep.returned (h : Rep b ph) {w : Winner} (hph : ph t = .ready w)
    (hs : b.state t ≠ .cancelled) : Rep (b.dispatch t) (update ph t .out) := by
  have hat : b.At t (.ready w) := hph ▸ h.at_ t
  have hcancel : w ≠ .cancel := fun hw => hs (hat.cancelled (congrArg some hw))
  rw [dispatch, if_neg hs]
  refine h.move { h.queues with } ?_ fun u hu => ?_
  · refine ⟨trivial, update_self _ _ _, ?_, by simp [Phase.winner], by simp [Phase.winner],
      by simp [Phase.timedOut], hat.calls, hat.linked, hat.timed, ep_note hat.log ?_⟩
    · simpa using hat.blocked
    · exact if_pos ⟨hcancel, hat.result⟩
  · exact ⟨rfl, update_of_ne hu _ _, rfl, note_of_ne hu, rfl, fun _ => Iff.rfl, fun _ _ => Iff.rfl⟩

/-! ### What the environment does

A timeout, a `cancel` and the steps of the calls that have won threads neither block a thread nor
let one go on, and they do not change which threads `resume` has chosen. -/

/-- Nobody has been chosen, has blocked, or has gone on. -/
structure Quiet (b : Blocking κ τ) (ph : τ → Phase) (b' : Blocking κ τ) (ph' : τ → Phase) :
    Prop where
  rep : Rep b' ph'
  queue : ∀ t, (b'.info t).queue = (b.info t).queue
  granted : ∀ t, (ph' t).granted = (ph t).granted
  blocked : ∀ t, ph' t = .blocked → ph t = .blocked
  out : ∀ t, ph' t = .out ↔ ph t = .out

theorem Quiet.updated (hrep : Rep b' (update ph t p))
    (hqueue : ∀ t, (b'.info t).queue = (b.info t).queue) (hg : p.granted = (ph t).granted)
    (hb : p ≠ .blocked) (ho : p = .out ↔ ph t = .out) : Quiet b ph b' (update ph t p) := by
  refine ⟨hrep, hqueue, fun u => ?_, fun u => ?_, fun u => ?_⟩ <;> by_cases hu : u = t
  · rw [hu, update_self, hg]
  · rw [update_of_ne hu]
  · rw [hu, update_self]
    exact fun h => absurd h hb
  · rw [update_of_ne hu]
    exact id
  · rw [hu, update_self, ho]
  · rw [update_of_ne hu]

theorem checkLoop_info (now : ℕ) : ∀ (es : List (Timer τ)) (b : Blocking κ τ),
    (checkLoop now es b).info = b.info
  | [], _ => rfl
  | e :: es, b => by
    have hexpire : (b.expire e).info = b.info := by
      rw [expire]
      split <;> rfl
    rw [checkLoop]
    split
    · rw [checkLoop_info now es, hexpire]
    · rfl

theorem Rep.checkExpiry_quiet (h : Rep b ph) (now : ℕ) :
    ∃ ph', Quiet b ph (b.checkExpiry now) ph' := by
  obtain ⟨ph', hrep, hexp⟩ := h.checkExpiry now
  refine ⟨ph', hrep, fun t => ?_, fun t => ?_, fun t hb => ?_, fun t => ?_⟩
  · rw [Blocking.checkExpiry, checkLoop_info]
  · obtain heq | ⟨hold, hnew⟩ := hexp t
    · rw [heq]
    · rw [hold, hnew]
      rfl
  · obtain heq | ⟨hold, -⟩ := hexp t
    · exact heq ▸ hb
    · exact hold
  · obtain heq | ⟨hold, hnew⟩ := hexp t
    · rw [heq]
    · simp [hold, hnew]

theorem Rep.cancel_quiet (h : Rep b ph) (t : τ) : ∃ ph', Quiet b ph (b.cancel t) ph' := by
  have hinfo : (b.cancel t).info = b.info := by
    rw [Blocking.cancel]
    split <;> rfl
  obtain ⟨ph', hrep, rfl | ⟨hold, rfl⟩⟩ := h.cancel t
  · exact ⟨ph', hrep, fun _ => by rw [hinfo], fun _ => rfl, fun _ => id, fun _ => Iff.rfl⟩
  · exact ⟨_,
      Quiet.updated hrep (fun _ => by rw [hinfo]) (by rw [hold]; rfl) (by simp) (by simp [hold])⟩

theorem Rep.advance_quiet [DecidableEq κ] (h : Rep b ph) (hc : c ∈ b.calls) :
    Quiet b ph (b.advance c) (update ph c.thread (ph c.thread).next) := by
  have hinfo : ∀ u, ((b.advance c).info u).queue = (b.info u).queue := by
    intro u
    rw [Blocking.advance]
    split
    · rfl
    · by_cases hu : u = c.thread
      · subst hu
        simp [markTimedOut]
      · simp [hu]
    · rfl
    · rfl
  refine Quiet.updated (h.advance hc) hinfo (ph c.thread).next_granted ?_ Phase.next_eq_out
  rw [(h.at_ c.thread).eq_claimed hc]
  exact Phase.next_ne_blocked

/-! ### Who cancels

Only `cancel` makes a thread `Cancelled`. -/

/-- No thread has been cancelled. -/
def Uncancelled (b : Blocking κ τ) : Prop := ∀ t, b.state t ≠ .cancelled

/-- The step from `b` to `b'` cancels no thread. -/
def Spares (b b' : Blocking κ τ) : Prop := ∀ t, b'.state t = .cancelled → b.state t = .cancelled

omit [DecidableEq τ] in
theorem Uncancelled.of_spares (h : b.Uncancelled) (hs : Spares b b') : b'.Uncancelled := fun t ht =>
  h t (hs t ht)

theorem spares_of_state {s : ThreadState} (hb : b'.state = update b.state t s)
    (hs : s ≠ .cancelled) : Spares b b' := by
  intro u hu
  rw [hb] at hu
  by_cases hut : u = t
  · subst hut
    exact absurd hu (by rwa [update_self])
  · rwa [update_of_ne hut] at hu

theorem spares_block [DecidableEq κ] (t : τ) (k : κ) (timeout : ℕ) :
    Spares b (b.block t k timeout).2 := by
  rw [Blocking.block]
  split
  · exact fun _ => id
  · rw [Blocking.suspend]
    split
    · exact spares_of_state rfl (by decide)
    · exact fun _ => id

theorem spares_resumeThread [DecidableEq κ] : Spares b (b.resumeThread k t) :=
  spares_of_state rfl (by decide)

theorem spares_checkLoop (now : ℕ) : ∀ (es : List (Timer τ)) (b : Blocking κ τ),
    Spares b (checkLoop now es b)
  | [], _ => fun _ => id
  | e :: es, b => by
    have hexpire : Spares b (b.expire e) := by
      rw [expire]
      split
      · exact spares_of_state rfl (by decide)
      · exact fun _ => id
    rw [checkLoop]
    split
    · exact fun t ht => hexpire t (spares_checkLoop now es _ t ht)
    · exact fun _ => id

theorem spares_checkExpiry (now : ℕ) : Spares b (b.checkExpiry now) :=
  spares_checkLoop now b.timers b

theorem spares_advance [DecidableEq κ] (c : Claim τ) : Spares b (b.advance c) := by
  rw [Blocking.advance]
  split <;> exact fun _ => id

theorem cancel_state_of_ne (hu : u ≠ t) : (b.cancel t).state u = b.state u := by
  rw [Blocking.cancel]
  split <;> exact update_of_ne hu _ _

theorem spares_terminate : Spares b (b.terminate t) := spares_of_state rfl (by decide)

theorem spares_dispatch : Spares b (b.dispatch t) := by
  rw [Blocking.dispatch]
  split
  · exact spares_terminate
  · exact fun _ => id

/-! ## Runs -/

theorem rep_init : Rep (init : Blocking κ τ) fun _ => .out where
  queues := ⟨fun _ => List.nodup_nil, by simp [init], by simp [init]⟩
  at_ t := by
    refine ⟨trivial, rfl, ?_, ?_, ?_, ?_, rfl, ?_, ?_, rfl⟩ <;>
      simp [init, Phase.winner, Phase.timedOut, Phase.linked, Phase.timed]

/-- Every thread is in some phase. -/
def Inv (b : Blocking κ τ) : Prop := ∃ ph, Rep b ph

/-- **Every step moves threads along the cycle.** -/
theorem Inv.step [DecidableEq κ] {a : Action κ τ} (h : b.Inv) (hs : b.step a = some b') :
    b'.Inv := by
  obtain ⟨ph, h⟩ := h
  cases a with
  | suspend t w =>
    obtain ⟨hpc, rfl⟩ := Option.ite_some_none_eq_some.mp hs
    by_cases hrun : b.state t = .running
    · exact ⟨_, h.suspend w (h.out hpc) hrun⟩
    · rw [Blocking.suspend, if_neg hrun]
      exact ⟨ph, h⟩
  | resume k =>
    cases hs
    rw [Blocking.resume]
    split
    · exact ⟨ph, h⟩
    · exact ⟨_, h.resumeThread ‹_›⟩
  | checkExpiry now =>
    cases hs
    obtain ⟨ph', h, -⟩ := h.checkExpiry now
    exact ⟨ph', h⟩
  | cancel t =>
    cases hs
    obtain ⟨ph', h, -⟩ := h.cancel t
    exact ⟨ph', h⟩
  | advance c =>
    obtain ⟨hc, rfl⟩ := Option.ite_some_none_eq_some.mp hs
    exact ⟨_, h.advance hc⟩
  | dispatch t =>
    obtain ⟨hpc, rfl⟩ := Option.ite_some_none_eq_some.mp hs
    by_cases hcancel : b.state t = .cancelled
    · rw [dispatch, if_pos hcancel]
      exact ⟨_, h.terminate (.inr hpc)⟩
    · obtain ⟨w, hw⟩ := h.ready hpc
      exact ⟨_, h.returned hw hcancel⟩
  | terminate t =>
    obtain ⟨hpc, rfl⟩ := Option.ite_some_none_eq_some.mp hs
    exact ⟨_, h.terminate (.inl hpc)⟩

/-- A thread in `suspend` is `Blocked` and unclaimed, or one call has won it. -/
theorem Rep.suspended (h : Rep b ph) (hpc : b.pc t = .suspended) :
    b.state t = .blocked ∧ b.calls.filter (·.thread = t) = [] ∨
      b.state t ≠ .blocked ∧ ∃ c, b.calls.filter (·.thread = t) = [c] := by
  have hat := h.at_ t
  rw [hat.pc] at hpc
  cases hp : ph t with
  | blocked => exact .inl ⟨hat.blocked.mpr hp, by rw [hat.calls, hp]; rfl⟩
  | claimed w stage =>
    exact .inr ⟨by simp [hat.blocked, hp], ⟨t, w, stage⟩, by rw [hat.calls, hp]; rfl⟩
  | out | ready | gone => simp [hp, Phase.pc] at hpc

/-- A thread that is about to be woken is in no queue. -/
theorem Rep.unlinked (h : Rep b ph) (hc : c ∈ b.calls) (hwake : c.stage = .wake) :
    (∀ k, c.thread ∉ b.queue k) ∧ ∀ e ∈ b.timers, e.thread ≠ c.thread := by
  have hat := h.at_ c.thread
  rw [hat.eq_claimed hc, hwake] at hat
  refine ⟨fun k hk => ?_, fun e he hthread => ?_⟩
  · simpa [Phase.linked] using ((hat.linked k).mp hk).1
  · simpa [Phase.timed] using ((hat.timed e.id).mp ⟨e, he, rfl, hthread⟩).1

/-- The iterator that `cancelTimeout` erases points to the entry of the thread. -/
theorem Rep.live (h : Rep b ph) (hc : c ∈ b.calls) (hstage : c.stage = .cancelTimeout)
    (hn : (b.info c.thread).titer = some n) : ∃ e ∈ b.timers, e.id = n ∧ e.thread = c.thread := by
  have hat := h.at_ c.thread
  rw [hat.eq_claimed hc, hstage] at hat
  exact (hat.timed n).mpr ⟨rfl, hn⟩

/-- How many steps a claim is away from waking its thread. -/
def rank : Stage → ℕ
  | .cancelTimeout => 3
  | .timedOut => 2
  | .unlink => 1
  | .wake => 0

theorem rank_next {w : Winner} (h : stage ≠ .wake) : rank (w.next stage) < rank stage := by
  cases stage with
  | wake => exact absurd rfl h
  | cancelTimeout | timedOut | unlink => cases w <;> decide

/-- The call that has won a thread makes it ready, whatever the other calls do: its own steps lead
there. -/
theorem Rep.completes [DecidableEq κ] {w : Winner} :
    ∀ {stage : Stage} {b : Blocking κ τ} {ph : τ → Phase}, Rep b ph →
      (⟨t, w, stage⟩ : Claim τ) ∈ b.calls → ∃ (stages : List Stage) (b' : Blocking κ τ),
      run step b (stages.map fun stage => .advance ⟨t, w, stage⟩) = some b' ∧ b'.pc t = .ready
  | stage, b, ph, h, hc => by
    have hph := (h.at_ t).eq_claimed hc
    have hadv := h.advance hc
    have hstep : b.step (.advance ⟨t, w, stage⟩) = some (b.advance ⟨t, w, stage⟩) := if_pos hc
    by_cases hwake : stage = .wake
    · subst hwake
      exact ⟨[.wake], _, run_cons.mpr ⟨_, hstep, run_nil.mpr rfl⟩, update_self _ _ _⟩
    · have hnext : (⟨t, w, w.next stage⟩ : Claim τ) ∈ (b.advance ⟨t, w, stage⟩).calls := by
        cases stage with
        | wake => exact absurd rfl hwake
        | cancelTimeout | timedOut | unlink => simp [Blocking.advance, Blocking.proceed]
      obtain ⟨stages, b', hrun, hready⟩ := Rep.completes hadv hnext
      exact ⟨stage :: stages, b', run_cons.mpr ⟨_, hstep, hrun⟩, hready⟩
  termination_by stage => rank stage
  decreasing_by exact rank_next hwake

/-- **Each blocking episode ends exactly once**, in every run of any number of threads.  The events
of every thread follow the cycle `Ep.step`, so each episode has one winner and one
`Scheduler::resume`, and `suspend` returns true if and only if the winner is
`BlockingQueue::resume`.  Until then the thread is `Blocked`, or one call has claimed it and gets to
wake it.  When that call is about to make the thread ready, the thread is on no queue; the iterator
that `cancelTimeout` erases points to a live entry of the thread; and all entries of the timeout
queue, which are what `checkExpiry` erases, belong to the present episode of their thread. -/
theorem episode_ends_once [DecidableEq κ] {as : List (Action κ τ)} {b : Blocking κ τ}
    (hrun : run step init as = some b) :
    (∀ t, ∃ e, b.ep t = some e) ∧
      (∀ t, b.pc t = .suspended → b.state t = .blocked ∧ b.calls.filter (·.thread = t) = [] ∨
        b.state t ≠ .blocked ∧ ∃ c, b.calls.filter (·.thread = t) = [c]) ∧
      (∀ c ∈ b.calls, ∃ (stages : List Stage) (b' : Blocking κ τ),
        run step b (stages.map fun stage => .advance ⟨c.thread, c.winner, stage⟩) = some b' ∧
          b'.pc c.thread = .ready) ∧
      (∀ c ∈ b.calls, c.stage = .wake →
        (∀ k, c.thread ∉ b.queue k) ∧ ∀ e ∈ b.timers, e.thread ≠ c.thread) ∧
      (∀ c ∈ b.calls, c.stage = .cancelTimeout → ∀ n, (b.info c.thread).titer = some n →
        ∃ e ∈ b.timers, e.id = n ∧ e.thread = c.thread) ∧
      ∀ e ∈ b.timers, (b.info e.thread).titer = some e.id ∧ b.pc e.thread = .suspended := by
  obtain ⟨ph, h⟩ : b.Inv := invariant (fun h hs => h.step hs) ⟨_, rep_init⟩ hrun
  refine ⟨fun t => ⟨_, (h.at_ t).log⟩, fun t => h.suspended, fun c => h.completes,
    fun c => h.unlinked, fun c hc hstage n => h.live hc hstage, fun e he => ⟨h.titer he, ?_⟩⟩
  have htimed := (((h.at_ e.thread).timed e.id).mp ⟨e, he, rfl, rfl⟩).1
  rw [(h.at_ e.thread).pc]
  cases hp : ph e.thread with
  | blocked | claimed => rfl
  | out | ready | gone => simp [hp, Phase.timed] at htimed

/-- Thread 0 waits with a timeout; its timeout expires while thread 1, which waits behind it, is
resumed, and a `cancel` reaches thread 1 before it returns. -/
theorem episode_ends_once_raced : ∃ b : Blocking Unit (Fin 2),
    run step init [.suspend 0 (.timeoutBlocking () 5), .suspend 1 (.blocking ()), .checkExpiry 7,
      .resume (), .advance ⟨0, .expiry, .timedOut⟩, .cancel 1,
      .advance ⟨1, .resume, .cancelTimeout⟩, .advance ⟨0, .expiry, .unlink⟩,
      .advance ⟨1, .resume, .wake⟩, .advance ⟨0, .expiry, .wake⟩, .dispatch 0,
      .dispatch 1] = some b ∧ (b.log 0 = [.start, .won .expiry, .woken, .returned (some false)] ∧
        b.log 1 = [.start, .won .resume, .woken, .terminated]) ∧ ∀ t, ∃ e, b.ep t = some e :=
  exists_run_and (by decide +kernel) fun _ hrun _ => (episode_ends_once hrun).1

end Blocking

end Kos

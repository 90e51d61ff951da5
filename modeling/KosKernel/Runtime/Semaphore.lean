import KosKernel.Lib.Count
import KosKernel.Runtime.Episodes

/-!
# Runtime/Semaphore — tokens

`V` hands its token to the first waiter that is still `Blocked`, and counts it only if there is
none. Between `V` and its return from `P` the waiter carries the token.  A timeout cannot take the
waiter any more, but a `cancel` makes `switchThread` terminate it with the token.
-/

namespace Kos

open Function Runs Blocking Count

/-- A `Semaphore` and its threads.  `returned` counts the calls of `P` and `tryP` that have returned
true, and `posted` the calls of `V`. -/
structure Semaphore (τ : Type) where
  b : Blocking Unit τ
  counter : ℕ
  returned : ℕ
  posted : ℕ

namespace Semaphore

variable {τ : Type} [DecidableEq τ]

inductive Action (τ : Type)
  /-- the section of `internalP`; the timeout of `P` is `limit` -/
  | P (t : τ) (timeout : ℕ)
  /-- a thread is dispatched after its wake-up -/
  | dispatch (t : τ)
  | V
  | checkExpiry (now : ℕ)
  | cancel (t : τ)
  | advance (c : Claim τ)
  | terminate (t : τ)

/-- The constructor. -/
def init (c : ℕ) : Semaphore τ := ⟨Blocking.init, c, 0, 0⟩

variable (m : Semaphore τ)

def internalP (t : τ) (timeout : ℕ) : Semaphore τ :=
  if m.counter < 1 then { m with b := (m.b.block t () timeout).2 }
  else { m with counter := m.counter - 1, returned := m.returned + 1 }

/-- `bq.block` returns, unless the thread has been cancelled. -/
def dispatch (m : Semaphore τ) (t : τ) : Semaphore τ :=
  { m with
    b := m.b.dispatch t
    returned := m.returned + (decide (m.b.state t ≠ .cancelled ∧ m.b.result t = some true)).toNat }

def V : Semaphore τ :=
  match m.b.resume () with
  | (some _, b) => { m with b, posted := m.posted + 1 }
  | (none, b) => { m with b, counter := wadd m.counter 1, posted := m.posted + 1 }

def step : Action τ → Option (Semaphore τ)
  | .P t timeout => if m.b.pc t = .out then some (m.internalP t timeout) else none
  | .dispatch t => if m.b.pc t = .ready then some (m.dispatch t) else none
  | .V => some m.V
  | .checkExpiry now => some { m with b := m.b.checkExpiry now }
  | .cancel t => some { m with b := m.b.cancel t }
  | .advance c => if c ∈ m.b.calls then some { m with b := m.b.advance c } else none
  | .terminate t => if m.b.pc t = .out then some { m with b := m.b.terminate t } else none

/-- No `cancel` hits a thread that carries a token, and the counter, a word, does not overflow. -/
def Kept : Action τ → Prop
  | .cancel t => ¬m.b.Granted t
  | .V => m.b.firstBlocked () = none → m.counter + 1 < wordSize
  | _ => True

instance (m : Semaphore τ) : ∀ a, Decidable (m.Kept a)
  | .cancel _ => inferInstanceAs (Decidable (¬_))
  | .V => inferInstanceAs (Decidable (_ → _))
  | .P _ _ | .dispatch _ | .checkExpiry _ | .advance _ | .terminate _ => isTrue trivial

variable [Fintype τ]

/-- **The invariant**: tokens are counted, carried, or have been returned. -/
structure Inv (c : ℕ) (m : Semaphore τ) (ph : τ → Phase) : Prop where
  rep : m.b.Rep ph
  kept : ∀ t, (ph t).granted = true → m.b.state t ≠ .cancelled
  queued : ∀ t, ph t = .blocked → (m.b.info t).queue = some ()
  blocked : ∀ t, ph t = .blocked → m.counter = 0
  balance : m.counter + m.returned + count Phase.granted ph = c + m.posted

variable {c : ℕ} {m m' : Semaphore τ} {ph ph' : τ → Phase} {t : τ}

/-- Quiet steps leave the tokens where they are. -/
theorem Inv.quiet {b : Blocking Unit τ} (h : Inv c m ph) (hq : Quiet m.b ph b ph')
    (hkept : ∀ t, (ph t).granted = true → b.state t ≠ .cancelled) : Inv c { m with b } ph' where
  rep := hq.rep
  kept t ht := hkept t (hq.granted t ▸ ht)
  queued t ht := by
    rw [hq.queue]
    exact h.queued t (hq.blocked t ht)
  blocked t ht := h.blocked t (hq.blocked t ht)
  balance := by
    rw [count_congr hq.granted]
    exact h.balance

theorem inv_init (c : ℕ) : Inv c (init c : Semaphore τ) fun _ => .out where
  rep := rep_init
  kept := by simp [Phase.granted]
  queued := by simp
  blocked := by simp
  balance := by
    rw [count_const rfl]
    rfl

theorem Inv.internalP (h : Inv c m ph) (hpc : m.b.pc t = .out) (timeout : ℕ) :
    ∃ ph', Inv c (m.internalP t timeout) ph' := by
  have hout := h.rep.out hpc
  have hbalance := h.balance
  rw [Semaphore.internalP]
  split
  · have hzero : m.counter = 0 := by omega
    obtain ⟨hwait, hrep⟩ | ⟨-, hb⟩ := h.rep.block hout () timeout
    · have hph : ∀ u, update ph t .blocked u = if u = t then .blocked else ph u := fun _ =>
        update_apply ..
      refine ⟨_, hrep, fun u hu hcancel => ?_, fun u hu => ?_, fun _ _ => hzero, ?_⟩
      · have := h.kept u
        have := spares_block t () timeout u hcancel
        grind [Phase.granted]
      · have := h.queued u
        rw [block_queue hwait]
        grind
      · rwa [count_update_of_eq (by rw [hout]; rfl)]
    · rw [hb]
      exact ⟨ph, h⟩
  · refine ⟨ph, h.rep, h.kept, h.queued, fun u hu => ?_, ?_⟩
    · have := h.blocked u hu
      omega
    · simp only
      omega

theorem Inv.V (h : Inv c m ph) (hg : m.Kept .V) : ∃ ph', Inv c m.V ph' := by
  have hbalance := h.balance
  rw [Semaphore.V, Blocking.resume]
  cases hf : m.b.firstBlocked () with
  | none =>
    have hadd : wadd m.counter 1 = m.counter + 1 := wadd_of_lt (hg hf)
    refine ⟨ph, h.rep, h.kept, h.queued,
      fun u hu => absurd hu (h.rep.not_blocked hf (h.queued u hu)), ?_⟩
    simp only [hadd]
    omega
  | some v =>
    have hv : ph v = .blocked := (h.rep.firstBlocked hf).1
    have hph : ∀ u, update ph v (.claimed .resume .cancelTimeout) u =
      if u = v then .claimed .resume .cancelTimeout else ph u := fun _ => update_apply ..
    have hcount :=
      count_update (p := Phase.granted) (f := ph) (t := v) (a := .claimed .resume .cancelTimeout)
    rw [hv] at hcount
    refine ⟨_, h.rep.resumeThread hf, fun u hu hcancel => ?_, fun u hu => ?_, fun u hu => ?_, ?_⟩
    · have := h.kept u
      have := spares_resumeThread u hcancel
      have := (h.rep.at_ v).blocked
      grind
    · have := h.queued u
      show (m.b.info u).queue = some ()
      grind
    · have := h.blocked u
      grind
    · simp only [Phase.granted] at hcount ⊢
      simp only [Bool.toNat_false, Bool.toNat_true] at hcount
      omega

/-- A thread leaves the semaphore; if it carries a token, it has returned. -/
theorem Inv.leave {p : Phase} {b : Blocking Unit τ} {returned : ℕ} (h : Inv c m ph)
    (hp : p.granted = false) (hblocked : p ≠ .blocked) (hrep : b.Rep (update ph t p))
    (hs : Spares m.b b) (hinfo : b.info = m.b.info)
    (hreturned : returned = m.returned + (ph t).granted.toNat) :
    Inv c { m with b, returned } (update ph t p) := by
  have hbalance := h.balance
  have hph : ∀ u, update ph t p u = if u = t then p else ph u := fun _ => update_apply ..
  have hcount := count_update (p := Phase.granted) (f := ph) (t := t) (a := p)
  refine ⟨hrep, fun u hu hcancel => ?_, fun u hu => ?_, fun u hu => ?_, ?_⟩
  · have := h.kept u
    have := hs u hcancel
    grind
  · have := h.queued u
    simp only [hinfo]
    grind
  · have := h.blocked u
    grind
  · simp only [hreturned]
    rw [hp, Bool.toNat_false] at hcount
    omega

/-- A thread that goes on takes its token with it; one that has been cancelled carries none. -/
theorem Inv.dispatch (h : Inv c m ph) (hready : m.b.pc t = .ready) :
    ∃ ph', Inv c (m.dispatch t) ph' := by
  obtain ⟨w, hw⟩ := h.rep.ready hready
  have hat : m.b.At t (.ready w) := hw ▸ h.rep.at_ t
  have hresult : m.b.result t = some true ↔ (ph t).granted = true := by
    rw [hat.result_eq_true, hw]
    cases w <;> simp [Phase.granted]
  have hreturned : (m.dispatch t).returned = m.returned + (ph t).granted.toNat := by
    have hkept := h.kept t
    simp only [Semaphore.dispatch, hresult]
    grind
  by_cases hcancel : m.b.state t = .cancelled
  · have hrep : (m.b.dispatch t).Rep (update ph t .gone) := by
      rw [Blocking.dispatch, if_pos hcancel]
      exact h.rep.terminate (.inr hready)
    exact ⟨_, h.leave rfl (by simp) hrep spares_dispatch dispatch_info hreturned⟩
  · exact ⟨_,
      h.leave rfl (by simp) (h.rep.returned hw hcancel) spares_dispatch dispatch_info hreturned⟩

theorem Inv.cancel_kept {u : τ} (h : Inv c m ph) (hg : ¬m.b.Granted t)
    (hu : (ph u).granted = true) : (m.b.cancel t).state u ≠ .cancelled := by
  have hne : u ≠ t := by
    rintro rfl
    exact hg ((h.rep.at_ u).granted_iff.mpr hu)
  rw [cancel_state_of_ne hne]
  exact h.kept u hu

/-- **One step keeps the tokens.** -/
theorem Inv.step {a : Action τ} (h : ∃ ph, Inv c m ph) (hg : m.Kept a) (hs : m.step a = some m') :
    ∃ ph, Inv c m' ph := by
  obtain ⟨ph, h⟩ := h
  cases a with
  | P t timeout =>
    obtain ⟨hpc, rfl⟩ := Option.ite_some_none_eq_some.mp hs
    exact h.internalP hpc timeout
  | dispatch t =>
    obtain ⟨hpc, rfl⟩ := Option.ite_some_none_eq_some.mp hs
    exact h.dispatch hpc
  | V =>
    cases hs
    exact h.V hg
  | checkExpiry now =>
    cases hs
    obtain ⟨ph', hq⟩ := h.rep.checkExpiry_quiet now
    exact ⟨ph', h.quiet hq fun t ht hcancel => h.kept t ht (spares_checkExpiry now t hcancel)⟩
  | cancel t =>
    cases hs
    obtain ⟨ph', hq⟩ := h.rep.cancel_quiet t
    exact ⟨ph', h.quiet hq fun u hu => h.cancel_kept hg hu⟩
  | advance call =>
    obtain ⟨hc, rfl⟩ := Option.ite_some_none_eq_some.mp hs
    exact ⟨_,
      h.quiet (h.rep.advance_quiet hc) fun t ht hcancel =>
      h.kept t ht (spares_advance call t hcancel)⟩
  | terminate t =>
    obtain ⟨hpc, rfl⟩ := Option.ite_some_none_eq_some.mp hs
    exact ⟨_, h.leave rfl (by simp) (h.rep.terminate (.inl hpc)) spares_terminate rfl
      (by rw [h.rep.out hpc]; rfl)⟩

/-- **Conservation of tokens**, in every run in which no `cancel` hits a thread between the `V` that
resumes it and its return, and the counter does not overflow: the counter, the calls of `P` and
`tryP` that have returned true and the threads on their way back with a token add up to the initial
value and the calls of `V`; and no thread of the queue is `Blocked` while the counter is
positive. -/
theorem semaphore_conservation {as : List (Action τ)} (hrun : run step (init c) as = some m)
    (hguard : Guarded step Kept (init c : Semaphore τ) as) :
    m.counter + m.returned + (Finset.univ.filter m.b.Granted).card = c + m.posted ∧
      ((∀ t, ¬m.b.Granted t) → m.counter + m.returned = c + m.posted) ∧
      (0 < m.counter → ∀ t ∈ m.b.queue (), m.b.state t ≠ .blocked) := by
  obtain ⟨ph, h⟩ := invariant_of_guarded Inv.step ⟨_, inv_init c⟩ hguard hrun
  have hcount : count Phase.granted ph = (Finset.univ.filter m.b.Granted).card := by
    rw [count_eq_card]
    congr 1
    ext t
    simp [(h.rep.at_ t).granted_iff]
  have hbalance := h.balance
  rw [hcount] at hbalance
  refine ⟨hbalance, fun hnone => ?_, fun hpos t _ hb => ?_⟩
  · have hempty : Finset.univ.filter m.b.Granted = ∅ :=
      Finset.filter_eq_empty_iff.mpr fun t _ => hnone t
    rwa [hempty, Finset.card_empty, Nat.add_zero] at hbalance
  · have := h.blocked t ((h.rep.at_ t).blocked.mp hb)
    omega

/-- Thread 0 waits, times out too late, and returns with the token of the first `V`. -/
theorem semaphore_conservation_lateTimeout : ∃ m : Semaphore (Fin 2),
    run step (init 0) [.P 0 5, .V, .checkExpiry 9, .cancel 1, .V,
      .advance ⟨0, .resume, .cancelTimeout⟩, .advance ⟨0, .resume, .wake⟩, .dispatch 0] = some m ∧
      (m.counter = 1 ∧ m.returned = 1 ∧ m.posted = 2 ∧ ∀ t, ¬m.b.Granted t) ∧
      m.counter + m.returned = 0 + m.posted :=
  exists_run_and (by decide +kernel) fun _ hrun hm =>
    (semaphore_conservation hrun (guarded_of_decide (by decide +kernel))).2.1 hm.2.2.2

/-- **A lost token**: `V` passes its token to the waiter, which is cancelled before it runs and
terminates. -/
theorem cancel_loses_token : ∃ m : Semaphore (Fin 1),
    run step (init 0) [.P 0 limit, .V, .advance ⟨0, .resume, .cancelTimeout⟩,
      .advance ⟨0, .resume, .wake⟩, .cancel 0, .dispatch 0] = some m ∧
      (∀ t, ¬m.b.Granted t) ∧ m.b.calls = [] ∧ m.counter + m.returned ≠ 0 + m.posted :=
  exists_run (by decide +kernel)

end Semaphore

end Kos

import KosKernel.Runtime.Episodes

/-!
# Runtime/Waits — blocking without timeouts and without `cancel`

A `Condition` waits without a timeout, and as long as nobody is cancelled the only way out of its
queue is `resume`.  A thread then stands in one of three places: it does not wait, it is in a queue,
or it has been resumed and is on its way back (`Stand`).  `Calm` says that a `Blocking` has the
threads where `st` puts them; the rules below say how its operations move them.
-/

namespace Kos

open Function Runs

/-- Where a thread stands. -/
inductive Stand (κ : Type)
  | out
  | queued (k : κ)
  | woken (k : κ)
  deriving DecidableEq

namespace Blocking

variable {κ τ : Type}

/-- The phase that goes with a place. -/
def Stands (q : Option κ) (p : Phase) : Stand κ → Prop
  | .out => p = .out
  | .queued k => p = .blocked ∧ q = some k
  | .woken k => p.granted = true ∧ q = some k

variable [DecidableEq τ]

/-- **Every thread stands where `st` says**, and none is cancelled or terminated. -/
structure CalmAt (b : Blocking κ τ) (st : τ → Stand κ) (ph : τ → Phase) : Prop where
  rep : Rep b ph
  running : ∀ t, b.state t = .running ∨ b.state t = .blocked
  stands : ∀ t, Stands (b.info t).queue (ph t) (st t)

def Calm (b : Blocking κ τ) (st : τ → Stand κ) : Prop := ∃ ph, CalmAt b st ph

variable {b b' : Blocking κ τ} {st : τ → Stand κ} {ph ph' : τ → Phase} {t u : τ} {k : κ}
  {c : Claim τ}

theorem calm_init : Calm (init : Blocking κ τ) fun _ => .out :=
  ⟨_, rep_init, fun _ => .inl rfl, fun _ => rfl⟩

theorem CalmAt.state_running (h : CalmAt b st ph) (hp : ph t ≠ .blocked) : b.state t = .running :=
  (h.running t).resolve_right fun hb => hp ((h.rep.at_ t).blocked.mp hb)

theorem CalmAt.uncancelled (h : CalmAt b st ph) (t : τ) : b.state t ≠ .cancelled := by
  rcases h.running t with hs | hs <;> simp [hs]

theorem CalmAt.out (h : CalmAt b st ph) (hst : st t = .out) : ph t = .out := by
  have := h.stands t
  rwa [hst] at this

theorem CalmAt.queued (h : CalmAt b st ph) (hst : st t = .queued k) :
    ph t = .blocked ∧ (b.info t).queue = some k := by
  have := h.stands t
  rwa [hst] at this

theorem CalmAt.woken (h : CalmAt b st ph) (hst : st t = .woken k) :
    (ph t).granted = true ∧ (b.info t).queue = some k := by
  have := h.stands t
  rwa [hst] at this

/-- One thread goes to another place. -/
theorem CalmAt.move {s : Stand κ} {p : Phase} (h : CalmAt b st ph) (hrep : Rep b' (update ph t p))
    (hstate : ∀ u, b'.state u = .running ∨ b'.state u = .blocked)
    (hqueue : ∀ u, u ≠ t → (b'.info u).queue = (b.info u).queue)
    (ht : Stands (b'.info t).queue p s) : Calm b' (update st t s) := by
  refine ⟨_, hrep, hstate, fun u => ?_⟩
  by_cases hu : u = t
  · subst hu
    rwa [update_self, update_self]
  · rw [update_of_ne hu, update_of_ne hu, hqueue u hu]
    exact h.stands u

omit [DecidableEq τ] in
theorem not_linked_of_granted {p : Phase} (h : p.granted = true) : p.linked = false := by
  cases p with
  | claimed w stage =>
    cases w with
    | resume => rfl
    | expiry | cancel => cases h
  | ready => rfl
  | out | blocked | gone => cases h

/-- The queue of `k` holds the threads that stand there. -/
theorem Calm.mem_queue (h : Calm b st) : t ∈ b.queue k ↔ st t = .queued k := by
  obtain ⟨ph, h⟩ := h
  rw [(h.rep.at_ t).linked k]
  cases hst : st t with
  | out => simp [h.out hst, Phase.linked]
  | queued k' => simp [h.queued hst, Phase.linked]
  | woken k' => simp [not_linked_of_granted (h.woken hst).1]

theorem Calm.queue_eq_nil (h : Calm b st) : b.queue k = [] ↔ ∀ t, st t ≠ .queued k := by
  rw [List.eq_nil_iff_forall_not_mem]
  exact forall_congr' fun t => not_congr h.mem_queue

variable [DecidableEq κ]

/-- `block` puts the thread into the queue. -/
theorem Calm.block (h : Calm b st) (hout : st t = .out) (k : κ) :
    (b.block t k limit).1 = true ∧ Calm (b.block t k limit).2 (update st t (.queued k)) := by
  obtain ⟨ph, h⟩ := h
  have hph : ph t = .out := h.out hout
  have hrun : b.state t = .running := h.state_running (by simp [hph])
  have hwait : (b.block t k limit).1 = true := by simp [Blocking.block, waitFor, hrun]
  refine ⟨hwait, ?_⟩
  obtain ⟨-, hrep⟩ | ⟨hno, -⟩ := h.rep.block hph k limit
  · refine h.move hrep (fun u => ?_) (fun u hu => by rw [block_queue hwait, if_neg hu])
      ⟨rfl, by rw [block_queue hwait, if_pos rfl]⟩
    have := h.running u
    simp only [Blocking.block, waitFor, if_true, Blocking.suspend, hrun]
    by_cases hu : u = t
    · simp [hu]
    · simpa [hu] using this
  · rw [hwait] at hno
    cases hno

/-- `resume` takes a thread out of a queue that is not empty. -/
theorem Calm.resume (h : Calm b st) (hne : b.queue k ≠ []) :
    ∃ u, st u = .queued k ∧ Calm (b.resume k).2 (update st u (.woken k)) := by
  obtain ⟨v, hv⟩ := List.exists_mem_of_ne_nil _ hne
  have hvk := h.mem_queue.mp hv
  obtain ⟨ph, h⟩ := h
  have hblocked := h.queued hvk
  cases hf : b.firstBlocked k with
  | none => exact absurd hblocked.1 (h.rep.not_blocked hf hblocked.2)
  | some u =>
    obtain ⟨hu, hmem⟩ := h.rep.firstBlocked hf
    have huk : st u = .queued k := Calm.mem_queue ⟨ph, h⟩ |>.mp hmem
    refine ⟨u, huk, ?_⟩
    rw [Blocking.resume, hf]
    refine h.move (h.rep.resumeThread hf) (fun w => ?_) (fun _ _ => rfl) ⟨rfl, (h.queued huk).2⟩
    have := h.running w
    by_cases hw : w = u
    · simp [resumeThread, claim, hw]
    · simpa [resumeThread, claim, hw] using this

/-- The steps of a call for a thread that it has won. -/
theorem Calm.advance (h : Calm b st) (hc : c ∈ b.calls) : Calm (b.advance c) st := by
  obtain ⟨ph, h⟩ := h
  have hq := h.rep.advance_quiet hc
  refine ⟨_, hq.rep, fun u => by rw [advance_state]; exact h.running u, fun u => ?_⟩
  cases hst : st u with
  | out => exact (hq.out u).mpr (h.out hst)
  | queued k =>
    have hu := h.queued hst
    refine ⟨?_, by rw [hq.queue]; exact hu.2⟩
    -- a thread that a call has won is not `Blocked`
    have hne : u ≠ c.thread := by
      rintro rfl
      exact Phase.noConfusion (hu.1.symm.trans ((h.rep.at_ c.thread).eq_claimed hc))
    rw [update_of_ne hne]
    exact hu.1
  | woken k =>
    exact ⟨by rw [hq.granted]; exact (h.woken hst).1, by rw [hq.queue]; exact (h.woken hst).2⟩

omit [DecidableEq κ] in
/-- A thread that is dispatched again has been resumed. -/
theorem Calm.dispatch (h : Calm b st) (hready : b.pc t = .ready) :
    ∃ k, st t = .woken k ∧ Calm (b.dispatch t) (update st t .out) := by
  obtain ⟨ph, h⟩ := h
  obtain ⟨w, hw⟩ := h.rep.ready hready
  cases hst : st t with
  | out => cases hw.symm.trans (h.out hst)
  | queued k => cases hw.symm.trans (h.queued hst).1
  | woken k =>
    refine ⟨k, rfl, h.move (h.rep.returned hw (h.uncancelled t)) (fun u => ?_) (fun u _ => ?_) rfl⟩
    · rw [Blocking.dispatch, if_neg (h.uncancelled t)]
      exact h.running u
    · rw [dispatch_info]

end Blocking

end Kos

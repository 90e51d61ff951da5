import KosKernel.Generic.RingBuffer
import KosKernel.Lib.Count
import KosKernel.Runtime.Episodes

/-!
# Runtime/MessageQueue — a bounded queue with baton passing

`MessageQueue` of `runtime/SyncQueues.h`.  A sender needs a slot, a receiver an element.  Whoever
has finished passes the slot or the element that it leaves behind to a waiter of the other side, or
counts it in `sendSlots` or `recvSlots`.  A waiter that has been chosen carries its slot while it is
on its way back to the lock, and the buffer must have room for it then.
-/

namespace Kos

open Function Runs Blocking Count

/-- The two blocking queues. -/
inductive Side
  | send
  | recv
  deriving DecidableEq

/-- Where a thread is in a call. -/
inductive MsgPc (α : Type)
  | idle
  | sending (elem : α)
  | receiving
  /-- `sendQueue.block` has returned true -/
  | pushing (elem : α)
  /-- `recvQueue.block` has returned true -/
  | popping

namespace MsgPc

variable {α : Type}

/-- The blocking queue that the thread waits in. -/
def side : MsgPc α → Option Side
  | .sending _ => some .send
  | .receiving => some .recv
  | _ => none

/-- `block` returns true. -/
def go : MsgPc α → MsgPc α
  | .sending elem => .pushing elem
  | .receiving => .popping
  | pc => pc

end MsgPc

/-- A `MessageQueue` over a `RingBuffer`, and its threads.  `pushed` and `popped` are the elements
of all calls of `push` and `pop`; `failed` is set when an assertion of the buffer fails. -/
structure MessageQueue (α τ : Type) where
  b : Blocking Side τ
  buffer : RingBuffer α
  sendSlots : ℕ
  recvSlots : ℕ
  pc : τ → MsgPc α
  pushed : List α
  popped : List α
  failed : Bool

namespace MessageQueue

variable {α τ : Type} [DecidableEq τ]

inductive Action (α τ : Type)
  /-- `send` and `trySend`, up to the return or to `block`; the timeout of `send` is `limit` -/
  | send (t : τ) (elem : α) (timeout : ℕ)
  | recv (t : τ) (timeout : ℕ)
  /-- `block` returns -/
  | unblocked (t : τ)
  /-- the section after `block` -/
  | finish (t : τ)
  | checkExpiry (now : ℕ)
  | advance (c : Claim τ)

def init (n : ℕ) (array : ℕ → α) : MessageQueue α τ :=
  ⟨Blocking.init, .init n array, n, 0, fun _ => .idle, [], [], false⟩

variable (m : MessageQueue α τ)

def move (t : τ) (pc : MsgPc α) : MessageQueue α τ :=
  { m with pc := update m.pc t pc }

/-- The end of `internalSend`: the element is pushed, and the baton passed to a receiver. -/
def deliver (elem : α) : MessageQueue α τ :=
  match m.buffer.push elem with
  | none => { m with failed := true }
  | some buffer =>
    let m := { m with buffer, pushed := m.pushed ++ [elem] }
    match m.b.resume .recv with
    | (some _, b) => { m with b }
    | (none, b) => { m with b, recvSlots := m.recvSlots + 1 }

/-- The end of `internalRecv`: an element is popped, and the baton passed to a sender. -/
def take : MessageQueue α τ :=
  match m.buffer.front, m.buffer.pop with
  | some elem, some buffer =>
    let m := { m with buffer, popped := m.popped ++ [elem] }
    match m.b.resume .send with
    | (some _, b) => { m with b }
    | (none, b) => { m with b, sendSlots := m.sendSlots + 1 }
  | _, _ => { m with failed := true }

/-- `block`, with what the thread waits for. -/
def wait (t : τ) (side : Side) (pc : MsgPc α) (timeout : ℕ) : MessageQueue α τ :=
  let r := m.b.block t side timeout
  { m.move t (if r.1 then pc else .idle) with b := r.2 }

def internalSend (t : τ) (elem : α) (timeout : ℕ) : MessageQueue α τ :=
  if m.sendSlots = 0 then m.wait t .send (.sending elem) timeout
  else { m with sendSlots := m.sendSlots - 1 }.deliver elem

def internalRecv (t : τ) (timeout : ℕ) : MessageQueue α τ :=
  if m.recvSlots = 0 then m.wait t .recv .receiving timeout
  else { m with recvSlots := m.recvSlots - 1 }.take

def unblocked (t : τ) : MessageQueue α τ :=
  { m.move t (if m.b.result t = some true then (m.pc t).go else .idle) with b := m.b.dispatch t }

def isIdle : MsgPc α → Bool
  | .idle => true
  | _ => false

variable {pc : MsgPc α}

theorem eq_idle (h : isIdle pc = true) : pc = .idle := by
  cases pc with
  | idle => rfl
  | sending | receiving | pushing | popping => cases h

def step : Action α τ → Option (MessageQueue α τ)
  | .send t elem timeout => if isIdle (m.pc t) then some (m.internalSend t elem timeout) else none
  | .recv t timeout => if isIdle (m.pc t) then some (m.internalRecv t timeout) else none
  | .unblocked t => if m.b.pc t = .ready then some (m.unblocked t) else none
  | .finish t =>
    match m.pc t with
    | .pushing elem => some ((m.move t .idle).deliver elem)
    | .popping => some (m.move t .idle).take
    | _ => none
  | .checkExpiry now => some { m with b := m.b.checkExpiry now }
  | .advance c => if c ∈ m.b.calls then some { m with b := m.b.advance c } else none

/-- The call of the thread returns true with this step. -/
def Returns : Action α τ → Prop
  | .send _ _ _ => m.sendSlots ≠ 0
  | .recv _ _ => m.recvSlots ≠ 0
  | .finish _ => True
  | _ => False

/-! ## The invariant -/

/-- A thread, which `resume` has chosen or not, carries a slot of the sending side, or an element
for the receiving side. -/
def carries (side : Side) : Bool × MsgPc α → Bool
  | (granted, .sending _) => decide (side = .send) && granted
  | (granted, .receiving) => decide (side = .recv) && granted
  | (_, .pushing _) => decide (side = .send)
  | (_, .popping) => decide (side = .recv)
  | (_, .idle) => false

variable {side : Side}

/-- A waiter carries something of its side once it has been chosen. -/
theorem carries_of_side {g : Bool} {side' : Side} (h : pc.side = some side') :
    carries side (g, pc) = (decide (side = side') && g) := by
  cases pc with
  | sending | receiving =>
    cases h
    rfl
  | idle | pushing | popping => exact absurd h (by simp [MsgPc.side])

variable [Fintype τ]

/-- The number of threads that carry a slot or an element. -/
def carried (granted : τ → Bool) (pc : τ → MsgPc α) (side : Side) : ℕ :=
  count (carries side) fun t => (granted t, pc t)

/-- **The invariant**, while the thread in the section holds `s` slots and `r` elements in its
hands. -/
structure Inv (n s r : ℕ) (m : MessageQueue α τ) (ph : τ → Phase) : Prop where
  rep : m.b.Rep ph
  uncancelled : m.b.Uncancelled
  waiting : ∀ t, (m.pc t).side.isSome = true ↔ ph t ≠ .out
  queued : ∀ t, ph t ≠ .out → (m.b.info t).queue = (m.pc t).side
  wf : m.buffer.Wf
  maxSize : m.buffer.maxSize = n
  slots : m.sendSlots + m.recvSlots + carried (Phase.granted ∘ ph) m.pc .send +
    carried (Phase.granted ∘ ph) m.pc .recv + s + r = n
  size : m.buffer.toList.length = m.recvSlots + carried (Phase.granted ∘ ph) m.pc .recv + r
  fifo : m.pushed = m.popped ++ m.buffer.toList
  failed : m.failed = false

variable {n s r : ℕ} {m m' : MessageQueue α τ} {ph ph' : τ → Phase} {t : τ}

omit [DecidableEq τ] in
theorem carried_idle (granted : τ → Bool) (side : Side) :
    carried granted (fun _ => (.idle : MsgPc α)) side = 0 := by simp [carried, count, carries]

theorem inv_init (n : ℕ) (array : ℕ → α) :
    Inv n 0 0 (init n array : MessageQueue α τ) fun _ => .out where
  rep := rep_init
  uncancelled _ := by simp [init, Blocking.init]
  waiting _ := by simp [init, MsgPc.side]
  queued := by simp
  wf := RingBuffer.wf_init n array
  maxSize := rfl
  slots := by simp [init, carried_idle]
  size := by simp [init, carried_idle]
  fifo := rfl
  failed := rfl

/-- The environment does not touch the slots. -/
theorem Inv.quiet {b : Blocking Side τ} (h : Inv n s r m ph) (hq : Quiet m.b ph b ph')
    (hu : b.Uncancelled) : Inv n s r { m with b } ph' := by
  have hgranted : Phase.granted ∘ ph' = Phase.granted ∘ ph := funext hq.granted
  refine ⟨hq.rep, hu, fun t => (h.waiting t).trans (not_congr (hq.out t).symm), fun t ht => ?_,
    h.wf, h.maxSize, ?_, ?_, h.fifo, h.failed⟩
  · rw [hq.queue]
    exact h.queued t (mt (hq.out t).mpr ht)
  · rw [hgranted]
    exact h.slots
  · rw [hgranted]
    exact h.size

/-- The slots that are carried after one thread has moved. -/
theorem carried_update (granted : τ → Bool) (pc : τ → MsgPc α) (g : Bool) (q : MsgPc α)
    (side : Side) : carried (update granted t g) (update pc t q) side +
        (carries side (granted t, pc t)).toNat =
      carried granted pc side + (carries side (g, q)).toNat := by
  have hpair : (fun u => (update granted t g u, update pc t q u)) =
      update (fun u => (granted u, pc u)) t (g, q) := by
    funext u
    by_cases hu : u = t
    · subst hu
      simp
    · simp [hu]
  rw [carried, hpair]
  exact count_update

variable {s' r' : ℕ}

/-- **One thread moves**: what it carries before and after is balanced by what is in the hands of
the section. -/
theorem Inv.move {p : Phase} {b : Blocking Side τ} (h : Inv n s r m ph)
    (hrep : b.Rep (update ph t p)) (hu : b.Uncancelled) (hwait : pc.side.isSome = true ↔ p ≠ .out)
    (hqueue : ∀ u, (b.info u).queue = if u = t ∧ p ≠ .out then pc.side else (m.b.info u).queue)
    (hs : (carries .send ((ph t).granted, m.pc t)).toNat + s =
      (carries .send (p.granted, pc)).toNat + s')
    (hr : (carries .recv ((ph t).granted, m.pc t)).toNat + r =
      (carries .recv (p.granted, pc)).toNat + r') :
    Inv n s' r' { m.move t pc with b } (update ph t p) := by
  have hph : ∀ u, update ph t p u = if u = t then p else ph u := fun _ => update_apply ..
  have hpc : ∀ u, update m.pc t pc u = if u = t then pc else m.pc u := fun _ =>
    update_apply ..
  have hsend := carried_update (t := t) (Phase.granted ∘ ph) m.pc p.granted pc .send
  have hrecv := carried_update (t := t) (Phase.granted ∘ ph) m.pc p.granted pc .recv
  have hgranted := comp_update Phase.granted ph t p
  have hslots := h.slots
  have hsize := h.size
  refine ⟨hrep, hu, fun u => ?_, fun u hout => ?_, h.wf, h.maxSize, ?_, ?_, h.fifo, h.failed⟩
  · have := h.waiting u
    simp only [MessageQueue.move, hph, hpc]
    grind
  · have := h.queued u
    simp only [MessageQueue.move, hqueue, hpc]
    grind
  · simp only [MessageQueue.move, hgranted, comp_apply] at hsend hrecv ⊢
    omega
  · simp only [MessageQueue.move, hgranted, comp_apply] at hrecv ⊢
    omega

/-! ## The steps -/

/-- A thread that is chosen takes what the section has in its hands. -/
theorem Inv.resume {v : τ} (h : Inv n s r m ph) (hf : m.b.firstBlocked side = some v)
    (hs : s = (decide (side = .send)).toNat + s') (hr : r = (decide (side = .recv)).toNat + r') :
    ∃ ph', Inv n s' r' { m with b := m.b.resumeThread side v } ph' := by
  obtain ⟨hv, hmem⟩ := h.rep.firstBlocked hf
  have hat : m.b.At v .blocked := hv ▸ h.rep.at_ v
  have hside : (m.pc v).side = some side := by
    rw [← h.queued v (by simp [hv])]
    exact ((hat.linked side).mp hmem).2
  have hmove : Inv n s' r' { m.move v (m.pc v) with b := m.b.resumeThread side v }
      (update ph v (.claimed .resume .cancelTimeout)) := by
    refine h.move (h.rep.resumeThread hf) (h.uncancelled.of_spares spares_resumeThread)
      (by simp [hside]) (fun u => ?_) ?_ ?_
    · show (m.b.info u).queue = _
      split
      · have hu := ‹u = v ∧ _›.1
        subst hu
        exact h.queued u (by simp [hv])
      · rfl
    · rw [hs, hv, carries_of_side hside, carries_of_side hside]
      simp [Phase.granted, eq_comm]
    · rw [hr, hv, carries_of_side hside, carries_of_side hside]
      simp [Phase.granted, eq_comm]
  have hself : update m.pc v (m.pc v) = m.pc := update_eq_self v m.pc
  rw [MessageQueue.move, hself] at hmove
  exact ⟨_, hmove⟩

/-- **The end of `internalSend`**: there is room for the slot in the hand of the sender. -/
theorem Inv.deliver (h : Inv n 1 0 m ph) (elem : α) : ∃ ph', Inv n 0 0 (m.deliver elem) ph' := by
  have hslots := h.slots
  have hsize := h.size
  have hroom : m.buffer.count < m.buffer.maxSize := by
    rw [RingBuffer.length_toList] at hsize
    rw [h.maxSize]
    omega
  obtain ⟨buffer, hpush, hwf, hmax, hlist⟩ := h.wf.push (x := elem) hroom
  -- the slot has become an element
  have hpushed : Inv n 0 1 { m with buffer, pushed := m.pushed ++ [elem] } ph := by
    refine { h with wf := hwf, maxSize := hmax.trans h.maxSize, slots := ?_, size := ?_,
                    fifo := ?_ }
    · exact hslots
    · simp only [hlist, List.length_append, List.length_singleton]
      exact congrArg (· + 1) hsize
    · simp only [hlist, h.fifo, List.append_assoc]
  rw [MessageQueue.deliver, hpush]
  simp only [Blocking.resume]
  cases hf : m.b.firstBlocked .recv with
  | some v => exact hpushed.resume hf rfl rfl
  | none =>
    have hslots := hpushed.slots
    have hsize := hpushed.size
    refine ⟨ph, h.rep, h.uncancelled, h.waiting, h.queued, hwf, hmax.trans h.maxSize, ?_, ?_,
      hpushed.fifo, h.failed⟩
    · simp only at hslots ⊢
      omega
    · simp only at hsize ⊢
      omega

/-- **The end of `internalRecv`**: the element in the hand of the receiver is in the buffer. -/
theorem Inv.take (h : Inv n 0 1 m ph) : ∃ ph', Inv n 0 0 m.take ph' := by
  have hslots := h.slots
  have hsize := h.size
  have hpos : 0 < m.buffer.count := by
    rw [RingBuffer.length_toList] at hsize
    omega
  obtain ⟨elem, buffer, hfront, hpop, hwf, hmax, hlist⟩ := h.wf.pop hpos
  -- the element has become a slot
  have hpopped : Inv n 1 0 { m with buffer, popped := m.popped ++ [elem] } ph := by
    refine { h with wf := hwf, maxSize := hmax.trans h.maxSize, slots := hslots, size := ?_,
                    fifo := ?_ }
    · rw [hlist, List.length_cons] at hsize
      exact Nat.add_right_cancel hsize
    · rw [h.fifo, hlist, List.append_assoc]
      rfl
  rw [MessageQueue.take, hfront, hpop]
  simp only [Blocking.resume]
  cases hf : m.b.firstBlocked .send with
  | some v => exact hpopped.resume hf rfl rfl
  | none =>
    have hslots := hpopped.slots
    refine ⟨ph, h.rep, h.uncancelled, h.waiting, h.queued, hwf, hmax.trans h.maxSize, ?_,
      hpopped.size, hpopped.fifo, h.failed⟩
    simp only at hslots ⊢
    omega

/-- A thread that does not wait is out of the blocking queues. -/
theorem Inv.out (h : Inv n s r m ph) (hside : (m.pc t).side = none) : ph t = .out :=
  not_not.mp fun hout => by
    have := (h.waiting t).mpr hout
    simp [hside] at this

/-- A thread blocks, or its call returns false at once. -/
theorem Inv.wait (h : Inv n 0 0 m ph) (hidle : m.pc t = .idle) (hside : pc.side = some side)
    (timeout : ℕ) : ∃ ph', Inv n 0 0 (m.wait t side pc timeout) ph' := by
  have hout : ph t = .out := h.out (by rw [hidle]; rfl)
  rw [MessageQueue.wait]
  obtain ⟨hwait, hrep⟩ | ⟨hwait, hb⟩ := h.rep.block hout side timeout
  · simp only [hwait, if_true]
    refine ⟨_, h.move hrep (h.uncancelled.of_spares (spares_block t side timeout)) (by simp [hside])
      (fun u => ?_) ?_ ?_⟩
    · rw [block_queue hwait, hside]
      simp
    · rw [hidle, carries_of_side hside]
      simp [carries, Phase.granted]
    · rw [hidle, carries_of_side hside]
      simp [carries, Phase.granted]
  · have hself : update m.pc t .idle = m.pc := by
      rw [← hidle]
      exact update_eq_self t m.pc
    simp only [hwait, hb, MessageQueue.move, Bool.false_eq_true, if_false, hself]
    exact ⟨ph, h⟩

/-- A waiter that has been chosen carries its slot on when `block` returns. -/
theorem carries_go {side' : Side} (side : Side) (h : pc.side = some side') :
    carries side (false, pc.go) = decide (side = side') ∧ pc.go.side = none := by
  cases pc with
  | sending | receiving =>
    cases h
    exact ⟨rfl, rfl⟩
  | idle | pushing | popping => exact absurd h (by simp [MsgPc.side])

theorem Inv.unblocked (h : Inv n 0 0 m ph) (hready : m.b.pc t = .ready) :
    ∃ ph', Inv n 0 0 (m.unblocked t) ph' := by
  obtain ⟨w, hw⟩ := h.rep.ready hready
  have hat : m.b.At t (.ready w) := hw ▸ h.rep.at_ t
  obtain ⟨side, hside⟩ := Option.isSome_iff_exists.mp ((h.waiting t).mpr (by simp [hw]))
  have hrep := h.rep.returned hw (h.uncancelled t)
  have hu : (m.b.dispatch t).Uncancelled := h.uncancelled.of_spares spares_dispatch
  have hqueue : ∀ (pc : MsgPc α) u, ((m.b.dispatch t).info u).queue =
      if u = t ∧ Phase.out ≠ .out then pc.side else (m.b.info u).queue := by
    simp [dispatch_info]
  rw [MessageQueue.unblocked]
  by_cases hresume : w = .resume
  · rw [if_pos (hat.result_eq_true.mpr hresume)]
    subst hresume
    refine ⟨_, h.move hrep hu ?_ (hqueue _) ?_ ?_⟩
    · simp [(carries_go side hside).2]
    · rw [carries_of_side hside, hw, show Phase.out.granted = false from rfl,
        (carries_go _ hside).1]
      simp [Phase.granted]
    · rw [carries_of_side hside, hw, show Phase.out.granted = false from rfl,
        (carries_go _ hside).1]
      simp [Phase.granted]
  · rw [if_neg (mt hat.result_eq_true.mp hresume)]
    have hgranted : (Phase.ready w).granted = false := by
      cases w with
      | resume => exact absurd rfl hresume
      | expiry | cancel => rfl
    refine ⟨_, h.move hrep hu (by simp [MsgPc.side]) (hqueue _) ?_ ?_⟩ <;>
      rw [carries_of_side hside, hw, hgranted] <;> simp [carries]

/-- The section after `block` takes over what the thread carries. -/
theorem Inv.hand (h : Inv n 0 0 m ph) (hside : (m.pc t).side = none)
    (hs : (carries .send (false, m.pc t)).toNat = s')
    (hr : (carries .recv (false, m.pc t)).toNat = r') : Inv n s' r' (m.move t .idle) ph := by
  have hout := h.out hside
  have hmove : Inv n s' r' { m.move t .idle with b := m.b } (update ph t .out) := h.move
    (by rw [← hout, update_eq_self]; exact h.rep) h.uncancelled (by simp [MsgPc.side]) (by simp)
    (by rw [hout]; exact hs.trans (Nat.zero_add s').symm)
      (by rw [hout]; exact hr.trans (Nat.zero_add r').symm)
  rwa [← hout, update_eq_self] at hmove

/-- **One step keeps the balance.** -/
theorem Inv.step {a : Action α τ} (h : ∃ ph, Inv n 0 0 m ph) (hs : m.step a = some m') :
    ∃ ph, Inv n 0 0 m' ph := by
  obtain ⟨ph, h⟩ := h
  cases a with
  | send t elem timeout =>
    obtain ⟨hidle, rfl⟩ := Option.ite_some_none_eq_some.mp hs
    rw [internalSend]
    split
    · exact h.wait (eq_idle hidle) rfl timeout
    · have hslots := h.slots
      have hslot : Inv n 1 0 { m with sendSlots := m.sendSlots - 1 } ph := by
        refine { h with slots := ?_ }
        simp only
        omega
      exact hslot.deliver elem
  | recv t timeout =>
    obtain ⟨hidle, rfl⟩ := Option.ite_some_none_eq_some.mp hs
    rw [internalRecv]
    split
    · exact h.wait (eq_idle hidle) rfl timeout
    · have hslots := h.slots
      have hsize := h.size
      have hslot : Inv n 0 1 { m with recvSlots := m.recvSlots - 1 } ph := by
        refine { h with slots := ?_, size := ?_ }
        · simp only
          omega
        · simp only
          omega
      exact hslot.take
  | unblocked t =>
    obtain ⟨hready, rfl⟩ := Option.ite_some_none_eq_some.mp hs
    exact h.unblocked hready
  | finish t =>
    rw [MessageQueue.step] at hs
    split at hs
    · have hpc := ‹m.pc t = _›
      cases hs
      exact (h.hand (t := t) (by rw [hpc]; rfl) (by rw [hpc]; rfl) (by rw [hpc]; rfl)).deliver _
    · have hpc := ‹m.pc t = _›
      cases hs
      exact (h.hand (t := t) (by rw [hpc]; rfl) (by rw [hpc]; rfl) (by rw [hpc]; rfl)).take
    · cases hs
  | checkExpiry now =>
    cases hs
    obtain ⟨ph', hq⟩ := h.rep.checkExpiry_quiet now
    exact ⟨ph', h.quiet hq (h.uncancelled.of_spares (spares_checkExpiry now))⟩
  | advance c =>
    obtain ⟨hc, rfl⟩ := Option.ite_some_none_eq_some.mp hs
    exact ⟨_, h.quiet (h.rep.advance_quiet hc) (h.uncancelled.of_spares (spares_advance c))⟩

/-! ## A bounded FIFO -/

omit [Fintype τ] in
/-- Only a step with which a call returns true touches the buffer and the slots. -/
theorem unchanged_of_not_returns {a : Action α τ} (hs : m.step a = some m') (hr : ¬m.Returns a) :
    m'.buffer = m.buffer ∧ m'.sendSlots = m.sendSlots ∧ m'.recvSlots = m.recvSlots := by
  cases a with
  | send t elem timeout =>
    obtain ⟨-, rfl⟩ := Option.ite_some_none_eq_some.mp hs
    rw [internalSend, if_pos (not_not.mp hr)]
    exact ⟨rfl, rfl, rfl⟩
  | recv t timeout =>
    obtain ⟨-, rfl⟩ := Option.ite_some_none_eq_some.mp hs
    rw [internalRecv, if_pos (not_not.mp hr)]
    exact ⟨rfl, rfl, rfl⟩
  | finish t => exact absurd trivial hr
  | unblocked t =>
    obtain ⟨-, rfl⟩ := Option.ite_some_none_eq_some.mp hs
    exact ⟨rfl, rfl, rfl⟩
  | checkExpiry now =>
    cases hs
    exact ⟨rfl, rfl, rfl⟩
  | advance c =>
    obtain ⟨-, rfl⟩ := Option.ite_some_none_eq_some.mp hs
    exact ⟨rfl, rfl, rfl⟩

/-- The number of senders that have been granted a slot and have not pushed yet, or of receivers
that have been granted an element and have not popped it yet. -/
def granted (m : MessageQueue α τ) (side : Side) : ℕ :=
  carried (fun t => decide (m.b.Granted t)) m.pc side

/-- **A bounded FIFO**, in every run of any number of threads without cancellation: the slots are in
the two counters or granted; the buffer holds the counted and the granted elements, so no assertion
of the buffer fails; what has been popped is a prefix of what has been pushed; and only a step with
which a call returns true changes the buffer or the counters. -/
theorem messageQueue_fifo {array : ℕ → α} {as : List (Action α τ)}
    (hrun : run step (init n array) as = some m) :
    m.sendSlots + m.recvSlots + m.granted .send + m.granted .recv = n ∧
      m.buffer.count = m.recvSlots + m.granted .recv ∧ m.failed = false ∧
      m.pushed = m.popped ++ m.buffer.toList ∧
      ∀ a m', m.step a = some m' → ¬m.Returns a →
        m'.buffer = m.buffer ∧ m'.sendSlots = m.sendSlots ∧ m'.recvSlots = m.recvSlots := by
  obtain ⟨ph, h⟩ := invariant Inv.step ⟨_, inv_init n array⟩ hrun
  have hgranted : Phase.granted ∘ ph = fun t => decide (m.b.Granted t) := by
    funext t
    simp [(h.rep.at_ t).granted_iff]
  have hslots := h.slots
  have hsize := h.size
  rw [hgranted] at hslots hsize
  rw [RingBuffer.length_toList] at hsize
  exact ⟨hslots, hsize, h.failed, h.fifo, fun a m' => unchanged_of_not_returns⟩

/-- A queue of one place: the second `send` waits, and is granted the slot of the first element. -/
theorem messageQueue_fifo_onePlace : ∃ m : MessageQueue ℕ (Fin 3),
    run step (init 1 fun _ => 0) [.send 0 7 limit, .send 1 8 5, .recv 2 limit, .checkExpiry 9,
      .advance ⟨1, .resume, .cancelTimeout⟩, .advance ⟨1, .resume, .wake⟩, .unblocked 1, .recv 2 0,
      .finish 1, .recv 2 0] = some m ∧ (m.pushed = [7, 8] ∧ m.popped = [7, 8]) ∧
      m.pushed = m.popped ++ m.buffer.toList :=
  exists_run_and (by decide +kernel) fun _ hrun _ => (messageQueue_fifo hrun).2.2.2.1

end MessageQueue

end Kos

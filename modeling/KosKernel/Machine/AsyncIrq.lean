import KosKernel.Generic.Bitmap
import KosKernel.Lib.Runs

/-!
# Machine/AsyncIrq — interrupts that a thread handles

`irq_handler_async` of `machine/Machine.cc` only sets a bit in `irqMask`.  The RTC interrupt posts
`asyncIrqSem` when it finds a bit set, and the thread `asyncIrqLoop` then clears the bits one by one
and calls the handlers.  All run at the same time: an update of a bit is atomic, but `findset` and
`empty` read `irqMask` word by word, and bits are set between the reads.
-/

namespace Kos

open Runs Function

/-- Where `asyncIrqLoop` is. -/
inductive IrqLoop
  /-- in `asyncIrqSem.P()` -/
  | wait
  /-- in `findset`, before it reads the word `i` -/
  | scan (i result : ℕ) (mask : Bool)
  /-- before `irqMask.clear` -/
  | clear (idx : ℕ)
  /-- before the calls of the handlers -/
  | call (idx : ℕ)
  deriving DecidableEq

/-- Where the RTC interrupt is: in `irqMask.empty()`, with `i` words to read and the others in
`acc`. -/
inductive RtcIrq
  | out
  | check (i : ℕ) (acc : BitVec 64)
  deriving DecidableEq

/-- `calls` is how often the handlers of each interrupt have been called. -/
structure AsyncIrq where
  irqMask : Bitmap 3
  asyncIrqSem : ℕ
  loop : IrqLoop
  rtc : RtcIrq
  calls : ℕ → ℕ

namespace AsyncIrq

def maxIrqCount : ℕ := 192

inductive Action
  /-- `irq_handler_async` -/
  | irq (idx : ℕ)
  /-- `irq_handler_0xf8` begins -/
  | rtc
  | rtcStep
  | loopStep

def init : AsyncIrq := ⟨Bitmap.zero, 0, .wait, .out, fun _ => 0⟩

/-- One step of the loop in `multiscan`, which reads `word`, or the test of its result. -/
def scanStep (word : BitVec 64) (i result : ℕ) (mask : Bool) : IrqLoop :=
  if i < 3 then .scan (i + 1) (result + if mask then lsbcond word.toNat
    else 0) (mask && word == 0#64)
  else if maxIrqCount ≤ result then .wait
  else .clear result

def loopStep (m : AsyncIrq) : Option AsyncIrq :=
  match m.loop with
  | .wait =>
    if 0 < m.asyncIrqSem then
      some { m with asyncIrqSem := m.asyncIrqSem - 1, loop := .scan 0 0 true }
    else none
  | .scan i result mask => some { m with loop := scanStep (m.irqMask.word i) i result mask }
  | .clear idx => some { m with irqMask := m.irqMask.clear idx, loop := .call idx }
  | .call idx => some { m with calls := update m.calls idx (m.calls idx + 1),
                               loop := .scan 0 0 true }

/-- One step of the RTC interrupt: `empty` reads the last word first. -/
def rtcStep (m : AsyncIrq) : Option AsyncIrq :=
  match m.rtc with
  | .out => none
  | .check (i + 1) acc => some { m with rtc := .check i (acc ||| m.irqMask.word i) }
  | .check 0 acc =>
    some { m with rtc := .out, asyncIrqSem := m.asyncIrqSem + if acc = 0#64 then 0 else 1 }

def step (m : AsyncIrq) : Action → Option AsyncIrq
  | .irq idx => if idx < maxIrqCount then some { m with irqMask := m.irqMask.set idx } else none
  | .rtc => if m.rtc = .out then some { m with rtc := .check 3 0#64 } else none
  | .rtcStep => m.rtcStep
  | .loopStep => m.loopStep

variable {m m' : AsyncIrq} {b : Bitmap 3} {i j n : ℕ} {a : Action}

/-! ## The readers -/

theorem word_ne_zero (h : b.test j = true) (hi : 64 * i ≤ j) (hj : j < 64 * (i + 1)) :
    b.word i ≠ 0#64 := by
  intro h0
  have := (b.word_eq_zero_iff i).mp h0 (j - 64 * i) (by omega)
  rw [Nat.add_sub_cancel' hi, h] at this
  cases this

/-- The loop will find the bit of `j`, or a lower one, before it waits. -/
def Scans (j : ℕ) : IrqLoop → Prop
  | .wait => False
  | .scan i result true => result = 64 * i ∧ 64 * i ≤ j
  | .scan _ result false => result < maxIrqCount
  | _ => True

theorem scans_scanStep (htest : b.test j = true) {result : ℕ} {mask : Bool}
    (h : Scans j (.scan i result mask)) : Scans j (scanStep (b.word i) i result mask) := by
  have hj : j < maxIrqCount := Bitmap.lt_of_test htest
  unfold scanStep
  cases mask with
  | false =>
    by_cases hi : i < 3
    · rwa [if_pos hi]
    · rw [if_neg hi, if_neg (Nat.not_le.mpr h)]
      trivial
  | true =>
    obtain ⟨rfl, hle⟩ := h
    rw [if_pos (show i < 3 by rw [maxIrqCount] at hj; omega), if_pos rfl, Bool.true_and]
    by_cases h0 : b.word i = 0#64
    · -- the bit is in a later word
      rw [h0]
      exact ⟨rfl, Nat.not_lt.mp fun hlt => word_ne_zero htest hle hlt h0⟩
    · rw [beq_eq_false_iff_ne.mpr h0]
      obtain ⟨hall, -⟩ | ⟨-, -, hset, -⟩ := b.multiscan_spec 1 i
      · exact absurd ((b.word_eq_zero_iff i).mpr fun k hk => hall _ (by omega) (by omega)) h0
      · exact Bitmap.lt_of_test hset

/-- The RTC interrupt will find a bit set. -/
def Checks (j : ℕ) : RtcIrq → Prop
  | .out => False
  | .check i acc => 64 * i ≤ j → acc ≠ 0#64

/-- The bit of `j` will be seen: by the RTC interrupt, or by the loop, which does not stay in
`P`. -/
def Noticed (j : ℕ) (m : AsyncIrq) : Prop := Checks j m.rtc ∨ 0 < m.asyncIrqSem ∨ Scans j m.loop

/-! ## No interrupt is lost -/

/-- The handlers of `j` have been called since the `n`-th time, or are about to be, or the bit is
set and, if `seen`, noticed. -/
structure Pending (seen : Bool) (j n : ℕ) (m : AsyncIrq) : Prop where
  le : n ≤ m.calls j
  due : m.calls j = n → m.loop = .call j ∨ m.irqMask.test j = true ∧ (seen = true → Noticed j m)

variable {seen : Bool} (h : Pending seen j n m)

include h

/-- A step that does not call the handlers of `j` and does not clear its bit. -/
theorem Pending.keep (hseen : m.irqMask.test j = true → Noticed j m → Noticed j m')
    (hcalls : m'.calls j = m.calls j) (hloop : m.loop = .call j → m'.loop = .call j)
    (htest : m.irqMask.test j = true → m'.irqMask.test j = true) : Pending seen j n m' where
  le := hcalls ▸ h.le
  due hn := (h.due (hcalls ▸ hn)).imp hloop fun ⟨ht, hn⟩ => ⟨htest ht, fun hs => hseen ht (hn hs)⟩

theorem Pending.rtcStep (hs : m.rtcStep = some m') : Pending seen j n m' := by
  rw [AsyncIrq.rtcStep] at hs
  split at hs
  case h_1 => cases hs
  case h_2 hc =>
    cases hs
    refine h.keep (fun ht hn => ?_) rfl id id
    rw [Noticed, hc] at hn
    refine hn.imp_left fun hacc hi h0 => ?_
    obtain ⟨hz, hw⟩ := BitVec.or_eq_zero_iff.mp h0
    exact word_ne_zero ht hi (Nat.not_le.mp fun hle => hacc hle hz) hw
  case h_3 hc =>
    cases hs
    refine h.keep (fun _ hn => Or.inr ?_) rfl id id
    rw [Noticed, hc] at hn
    exact hn.elim (fun hacc => Or.inl (by simp [hacc (Nat.zero_le _)]))
      (Or.imp_left (Nat.lt_add_right _))

theorem Pending.loopStep (hs : m.loopStep = some m') : Pending seen j n m' := by
  rw [AsyncIrq.loopStep] at hs
  split at hs
  case h_1 hl =>
    obtain ⟨-, rfl⟩ := Option.ite_some_none_eq_some.mp hs
    exact h.keep (fun _ _ => Or.inr (Or.inr ⟨rfl, Nat.zero_le _⟩)) rfl (by simp [hl]) id
  case h_2 hl =>
    cases hs
    refine h.keep (fun ht hn => ?_) rfl (by simp [hl]) id
    rw [Noticed, hl] at hn
    exact hn.imp_right (Or.imp_right (scans_scanStep ht))
  case h_3 idx hl =>
    cases hs
    by_cases hidx : idx = j
    · exact ⟨h.le, fun _ => Or.inl (by rw [hidx])⟩
    · exact h.keep (fun _ _ => Or.inr (Or.inr trivial)) rfl (by simp [hl])
        (by simp [m.irqMask.test_clear, hidx])
  case h_4 idx hl =>
    cases hs
    by_cases hidx : idx = j
    · subst hidx
      have hlt : n < update m.calls idx (m.calls idx + 1) idx := by
        simpa using Nat.lt_succ_of_le h.le
      exact ⟨hlt.le, fun hn => absurd hn hlt.ne'⟩
    · exact h.keep (fun _ _ => Or.inr (Or.inr ⟨rfl, Nat.zero_le _⟩))
        (update_of_ne (Ne.symm hidx) ..) (by simp [hl, hidx]) id

theorem Pending.step (hs : m.step a = some m') : Pending seen j n m' := by
  cases a with
  | irq idx =>
    obtain ⟨hlt, rfl⟩ := Option.ite_some_none_eq_some.mp hs
    exact h.keep (fun _ => id) rfl id fun ht => by rw [m.irqMask.test_set hlt, ht, Bool.or_true]
  | rtc =>
    obtain ⟨hout, rfl⟩ := Option.ite_some_none_eq_some.mp hs
    refine h.keep (fun _ hn => ?_) rfl id id
    rw [Noticed, hout] at hn
    exact Or.inr (hn.resolve_left id)
  | rtcStep => exact h.rtcStep hs
  | loopStep => exact h.loopStep hs

omit h

/-- **No interrupt is lost**: once the RTC interrupt has run after an asynchronous interrupt,
`asyncIrqLoop` does not wait for the semaphore again before it has called the handlers. -/
theorem irq_served {bs cs : List Action} (hrun : run step m (.irq j :: bs ++ .rtc :: cs) = some m')
    (hrtc : m'.rtc = .out) (hloop : m'.loop = .wait) (hsem : m'.asyncIrqSem = 0) :
    m.calls j < m'.calls j := by
  obtain ⟨m₁, hirq, hrun⟩ := run_cons.mp hrun
  obtain ⟨m₂, hrun₁, hrun⟩ := run_append.mp hrun
  obtain ⟨m₃, hrtc', hrun⟩ := run_cons.mp hrun
  have h₁ : Pending false j (m.calls j) m₁ := by
    obtain ⟨hlt, rfl⟩ := Option.ite_some_none_eq_some.mp hirq
    exact ⟨le_rfl, fun _ => Or.inr ⟨by simp [m.irqMask.test_set hlt], nofun⟩⟩
  have h₂ : Pending false j (m.calls j) m₂ := invariant Pending.step h₁ hrun₁
  have h₃ : Pending true j (m.calls j) m₃ := by
    obtain ⟨-, rfl⟩ := Option.ite_some_none_eq_some.mp hrtc'
    refine ⟨h₂.le,
      fun hn => (h₂.due hn).imp_right fun ⟨ht, _⟩ => ⟨ht, fun _ => Or.inl fun hle => ?_⟩⟩
    exact absurd (Bitmap.lt_of_test ht) (Nat.not_lt.mpr hle)
  have h : Pending true j (m.calls j) m' := invariant Pending.step h₃ hrun
  refine lt_of_le_of_ne h.le fun hn => ?_
  obtain hc | ⟨-, hnot⟩ := h.due hn.symm
  · cases hloop.symm.trans hc
  · obtain hc | hc | hc := hnot rfl
    · rwa [hrtc] at hc
    · omega
    · rwa [hloop] at hc

/-- Interrupt 70, and the loop until it waits again. -/
theorem irq_served_once : ∃ m, run step init
    (.irq 70 :: [] ++ .rtc :: (List.replicate 4 .rtcStep ++ List.replicate 11 .loopStep)) = some m ∧
      (m.rtc = .out ∧ m.loop = .wait ∧ m.asyncIrqSem = 0) ∧ init.calls 70 < m.calls 70 :=
  exists_run_and (by decide) fun _ hrun h => irq_served hrun h.1 h.2.1 h.2.2

end AsyncIrq

end Kos

import Mathlib.Logic.Basic

/-!
# Machine/SpinLock — why a kernel call does not return

A call of the kernel either returns or ends in a `Fault`.  A `SpinLock` (`machine/SpinLock.h`) is
the bit `locked`: acquiring a lock that the caller itself holds spins for ever, because nobody is
left to clear the bit.
-/

namespace Kos

/-- The ways a call can fail to return. -/
inductive Fault
  /-- `acquire` on a lock that is never released -/
  | spin
  /-- a failed `KASSERT` or a `KABORT` -/
  | kassert
  /-- an access outside an array, or through a dangling pointer or iterator -/
  | outOfBounds
  /-- a loop that makes no progress -/
  | diverge
  deriving DecidableEq

/-- A section under `ScopedLock`: the lock must be free on entry and is free again on exit. -/
def scopedLock {α : Type} (locked : Bool) (body : Except Fault α) : Except Fault α :=
  if locked then .error .spin else body

variable {α : Type}

@[simp] theorem scopedLock_false (body : Except Fault α) : scopedLock false body = body := rfl

@[simp] theorem scopedLock_true (body : Except Fault α) : scopedLock true body = .error .spin :=
  rfl

theorem scopedLock_of_false {locked : Bool} (h : locked = false) (body : Except Fault α) :
    scopedLock locked body = body := by
  rw [h, scopedLock_false]

theorem scopedLock_eq_ok {locked : Bool} {body : Except Fault α} {r : α} :
    scopedLock locked body = .ok r ↔ locked = false ∧ body = .ok r := by
  cases locked <;> simp

/-- The call spins, to be evaluated. -/
def Fault.spins {α : Type} : Except Fault α → Bool
  | .error .spin => true
  | _ => false

theorem Fault.eq_spin {x : Except Fault α} (h : Fault.spins x = true) : x = .error .spin := by
  unfold Fault.spins at h
  split at h
  · rfl
  · cases h

variable {β : Type}

theorem Fault.map_eq_ok {x : Except Fault α} {f : α → β} {b : β} (h : x.map f = .ok b) :
    ∃ a, x = .ok a ∧ f a = b := by
  cases x with
  | error e => cases h
  | ok a => exact ⟨a, rfl, Except.ok.inj h⟩

theorem Fault.bind_eq_ok {x : Except Fault α} {f : α → Except Fault β} {b : β}
    (h : x.bind f = .ok b) : ∃ a, x = .ok a ∧ f a = .ok b := by
  cases x with
  | error e => cases h
  | ok a => exact ⟨a, rfl, h⟩

theorem Fault.toOption_eq_some {x : Except Fault α} {a : α} (h : x.toOption = some a) :
    x = .ok a := by
  cases x with
  | error e => cases h
  | ok b => exact congrArg _ (Option.some.inj h)

theorem Fault.map_eq_error {x : Except Fault α} {f : α → β} {e : Fault} (h : x.map f = .error e) :
    x = .error e := by
  cases x with
  | error e => exact congrArg _ (Except.error.inj h)
  | ok a => cases h

end Kos

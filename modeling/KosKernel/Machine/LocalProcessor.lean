import KosKernel.Lib.Runs
import Mathlib.Data.Finset.Card

/-!
# Machine/LocalProcessor — spin locks and interrupts

`SpinLock` of `machine/SpinLock.h` over `LocalProcessor::lock` and `unlock` of
`machine/Processor.h`: a core counts its locks, disables interrupts before the first and enables
them after the last.  `lock` reads the count before `cli`, so an interrupt can come between, and the
interrupted thread can go on on another core.
-/

namespace Kos

open Runs Function

/-- `acquire(l)` of the lock `lk`, or `tryAcquire`, which has no `l`. -/
structure SpinCall (ℓ : Type) where
  lk : ℓ
  l : Option ℓ
  isTry : Bool
  deriving DecidableEq

/-- Where the code on a core is. -/
inductive SpinPc (ℓ : Type)
  | out
  /-- in `lock` with a lock count of 0, before `cli` -/
  | disable (k : SpinCall ℓ)
  /-- in `lock` with another lock count, before `incLockCount` -/
  | count (k : SpinCall ℓ)
  /-- before `__atomic_test_and_set`, which `acquire` repeats while the lock is taken -/
  | take (k : SpinCall ℓ)
  /-- in `release`, before `locked = false` -/
  | clear (l : ℓ)
  /-- in `unlock`, before `decLockCount` -/
  | uncount
  /-- in `unlock` with a lock count of 0, before `sti` -/
  | enable
  deriving DecidableEq

/-- A core: `held` are the locks of the code that runs on it, and `isr` says that this is a
handler. -/
structure SpinCore (ℓ : Type) where
  pc : SpinPc ℓ
  held : Finset ℓ
  lockCount : ℕ
  interrupts : Bool
  isr : Bool

/-- The spin locks and the cores, with the code that was interrupted and has not gone on yet. -/
structure SpinLocks (κ ℓ : Type) where
  locked : ℓ → Bool
  core : κ → SpinCore ℓ
  interrupted : List (SpinPc ℓ × Finset ℓ)

variable {κ ℓ : Type}

namespace SpinLocks

inductive Action (κ ℓ : Type)
  /-- `acquire` or `tryAcquire` begins: the core reads its lock count -/
  | call (c : κ) (k : SpinCall ℓ)
  | release (c : κ) (l : ℓ)
  | advance (c : κ)
  | interrupt (c : κ)
  /-- a handler returns to code that was interrupted, on any core -/
  | iret (c : κ) (t : SpinPc ℓ × Finset ℓ)

/-- Every core is in the `unlock` of `initInterrupts`. -/
def init : SpinLocks κ ℓ := ⟨fun _ => false, fun _ => ⟨.uncount, ∅, 1, false, false⟩, []⟩

variable [DecidableEq κ]

def go (m : SpinLocks κ ℓ) (c : κ) (s : SpinCore ℓ) : SpinLocks κ ℓ :=
  { m with core := update m.core c s }

variable [DecidableEq ℓ]

def advance (m : SpinLocks κ ℓ) (c : κ) : Option (SpinLocks κ ℓ) :=
  let s := m.core c
  match s.pc with
  | .out => none
  -- nothing comes between `cli` and `incLockCount`
  | .disable k =>
    some (m.go c { s with pc := .take k, lockCount := s.lockCount + 1, interrupts := false })
  | .count k => some (m.go c { s with pc := .take k, lockCount := s.lockCount + 1 })
  | .take k =>
    if m.locked k.lk then some (m.go c { s with pc := if k.isTry then .uncount else .take k })
    else some { m.go c { s with pc := k.l.elim .out .clear, held := insert k.lk s.held } with
      locked := update m.locked k.lk true }
  | .clear l =>
    some { m.go c { s with pc := .uncount, held := s.held.erase l } with
      locked := update m.locked l false }
  | .uncount =>
    let n := s.lockCount - 1
    some (m.go c { s with pc := if n = 0 then .enable else .out, lockCount := n })
  | .enable => some (m.go c { s with pc := .out, interrupts := true })

/-- Code releases only locks that it holds. -/
def step (m : SpinLocks κ ℓ) : Action κ ℓ → Option (SpinLocks κ ℓ)
  | .call c k =>
    let s := m.core c
    if s.pc = .out ∧ ∀ l ∈ k.l, l ∈ s.held then
      some (m.go c { s with pc := if s.lockCount = 0 then .disable k else .count k })
    else none
  | .release c l =>
    let s := m.core c
    if s.pc = .out ∧ l ∈ s.held then some (m.go c { s with pc := .clear l }) else none
  | .advance c => m.advance c
  | .interrupt c =>
    let s := m.core c
    if s.interrupts then
      -- `lockFake` of `IsrEntry`
      some { m.go c ⟨.out, ∅, s.lockCount + 1, false, true⟩ with
        interrupted := (s.pc, s.held) :: m.interrupted }
    else none
  | .iret c t =>
    let s := m.core c
    if s.pc = .out ∧ s.held = ∅ ∧ s.isr ∧ t ∈ m.interrupted then
      -- `unlockFake`, perhaps after a switch to another thread
      some { m.go c ⟨t.1, t.2, s.lockCount - 1, true, false⟩ with
        interrupted := m.interrupted.erase t }
    else none

end SpinLocks

/-- What the code has added to the lock count beside the locks it holds. -/
def SpinPc.extra : SpinPc ℓ → ℕ
  | take _ | uncount => 1
  | _ => 0

/-- The lock that the code will release. -/
def SpinPc.last : SpinPc ℓ → Option ℓ
  | disable k | count k | take k => k.l
  | clear l => some l
  | _ => none

/-- **A core**: the lock count is the number of locks, and interrupts are disabled while it is not
0. -/
structure SpinCore.Ok (s : SpinCore ℓ) : Prop where
  lockCount : s.lockCount = s.held.card + s.isr.toNat + s.pc.extra
  interrupts : s.interrupts = true ↔ s.lockCount = 0 ∧ s.pc ≠ .enable
  last : ∀ l ∈ s.pc.last, l ∈ s.held
  count : ∀ k, s.pc = .count k → s.lockCount ≠ 0
  enable : s.pc = .enable → s.lockCount = 0

theorem SpinCore.Ok.held_eq_empty {s : SpinCore ℓ} (h : s.Ok) (h0 : s.lockCount = 0) : s.held = ∅ :=
  Finset.card_eq_zero.mp (by have := h.lockCount; omega)

namespace SpinLocks

variable {m m' : SpinLocks κ ℓ} {c : κ} {s : SpinCore ℓ}

/-- **The invariant.**  What was interrupted can go on wherever interrupts are enabled. -/
structure Inv (m : SpinLocks κ ℓ) : Prop where
  ok : ∀ c, (m.core c).Ok
  interrupted : ∀ t ∈ m.interrupted, SpinCore.Ok ⟨t.1, t.2, 0, true, false⟩
  owned : ∃ owner : ℓ → Option κ,
    (∀ l, m.locked l = (owner l).isSome) ∧ ∀ c l, l ∈ (m.core c).held ↔ owner l = some c

theorem inv_init : Inv (init : SpinLocks κ ℓ) where
  ok _ := by constructor <;> simp [init, SpinPc.extra, SpinPc.last]
  interrupted := nofun
  owned := ⟨fun _ => none, fun _ => rfl, by simp [init]⟩

variable [DecidableEq κ]

theorem go_core (d : κ) : (m.go c s).core d = if d = c then s else m.core d := update_apply ..

attribute [local grind] SpinPc.extra SpinPc.last SpinCore.Ok
attribute [local grind =] update_apply go_core

theorem Inv.ok_go (h : Inv m) (hs : s.Ok) (d : κ) : ((m.go c s).core d).Ok := by
  have := h.ok d
  grind

/-- The core `c` changes, but not its locks. -/
theorem Inv.go (h : Inv m) (hs : s.Ok) (hheld : s.held = (m.core c).held) : Inv (m.go c s) := by
  obtain ⟨owner, hlocked, howner⟩ := h.owned
  exact ⟨h.ok_go hs, h.interrupted, owner, hlocked, by grind⟩

variable [DecidableEq ℓ]

theorem Inv.advance (h : Inv m) (hs : m.advance c = some m') : Inv m' := by
  have hc := h.ok c
  obtain ⟨owner, hlocked, howner⟩ := h.owned
  rw [SpinLocks.advance] at hs
  dsimp only at hs
  split at hs
  case h_1 => cases hs
  case h_4 k hpc =>
    split at hs
    case isTrue => exact Option.some.inj hs ▸ h.go (by constructor <;> grind) rfl
    case isFalse hfree =>
      cases hs
      have hcard := Finset.card_insert_of_notMem (show k.lk ∉ (m.core c).held by grind)
      refine ⟨h.ok_go ?_, h.interrupted, update owner k.lk (some c), by grind, by grind⟩
      cases hk : k.l <;> constructor <;> grind [Option.elim]
  case h_5 l hpc =>
    cases hs
    have hl : l ∈ (m.core c).held := hc.last l (by rw [hpc]; rfl)
    have hcard := Finset.card_erase_add_one hl
    exact ⟨h.ok_go (by constructor <;> grind), h.interrupted,
      update owner l none, by grind, by grind⟩
  all_goals exact Option.some.inj hs ▸ h.go (by constructor <;> grind) rfl

theorem Inv.step {a : Action κ ℓ} (h : Inv m) (hs : m.step a = some m') : Inv m' := by
  cases a with
  | call c k | release c l =>
    have hc := h.ok c
    obtain ⟨⟨hpc, hk⟩, rfl⟩ := Option.ite_some_none_eq_some.mp hs
    exact h.go (by constructor <;> grind) rfl
  | advance c => exact h.advance hs
  | interrupt c =>
    have hc := h.ok c
    obtain ⟨hi, rfl⟩ := Option.ite_some_none_eq_some.mp hs
    have hnil := hc.held_eq_empty (hc.interrupts.mp hi).1
    have hgo := h.go (c := c) (s := ⟨.out, ∅, (m.core c).lockCount + 1, false, true⟩)
      (by constructor <;> grind) hnil.symm
    exact ⟨hgo.ok, List.forall_mem_cons.mpr ⟨by constructor <;> grind, h.interrupted⟩, hgo.owned⟩
  | iret c t =>
    have hc := h.ok c
    obtain ⟨⟨hpc, hheld, hisr, ht⟩, rfl⟩ := Option.ite_some_none_eq_some.mp hs
    have hok := h.interrupted t ht
    have hnil := hok.held_eq_empty rfl
    have hgo := h.go (c := c) (s := ⟨t.1, t.2, (m.core c).lockCount - 1, true, false⟩)
      (by constructor <;> grind) (by grind)
    exact ⟨hgo.ok, fun u hu => h.interrupted u (List.mem_of_mem_erase hu), hgo.owned⟩

/-- **Spin locks exclude, and code that holds one is not interrupted**, in every run of any number
of cores: a lock is locked if and only if it has a holder, and then it has one; a core with a lock,
before one or in a handler has interrupts disabled, and outside it has them enabled. -/
theorem spinLocks_safe {as : List (Action κ ℓ)} (hrun : run step init as = some m) :
    (∀ l c d, l ∈ (m.core c).held → l ∈ (m.core d).held → c = d) ∧
      (∀ l, m.locked l = true ↔ ∃ c, l ∈ (m.core c).held) ∧ (∀ t ∈ m.interrupted, t.2 = ∅) ∧
      ∀ c, let s := m.core c; (s.held ≠ ∅ ∨ s.isr ∨ s.pc.extra ≠ 0 → s.interrupts = false) ∧
        (s.pc = .out → s.held = ∅ → s.isr = false → s.interrupts = true) := by
  have h : Inv m := invariant Inv.step inv_init hrun
  obtain ⟨owner, hlocked, howner⟩ := h.owned
  refine ⟨fun l c d hc hd => ?_, fun l => ?_, fun t ht => (h.interrupted t ht).held_eq_empty rfl,
    fun c => ?_⟩
  · exact Option.some.inj (((howner c l).mp hc).symm.trans ((howner d l).mp hd))
  · rw [hlocked, Option.isSome_iff_exists]
    exact exists_congr fun c => (howner c l).symm
  · have hc := h.ok c
    have hnil := hc.held_eq_empty
    grind

/-- A core that holds a lock. -/
theorem spinLocks_safe_held : ∃ m, run step (init : SpinLocks Bool ℕ)
    [.advance true, .advance true, .call true ⟨0, none, false⟩, .advance true, .advance true] =
      some m ∧ 0 ∈ (m.core true).held ∧ (m.core true).interrupts = false :=
  exists_run_and (by decide) fun _ hrun h =>
    ((spinLocks_safe hrun).2.2.2 true).1 (Or.inl (Finset.ne_empty_of_mem h))

end SpinLocks

end Kos

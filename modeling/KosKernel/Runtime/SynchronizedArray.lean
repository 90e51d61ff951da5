import Mathlib.Data.Fintype.Basic
import KosKernel.Generic.ManagedArray
import KosKernel.Runtime.Episodes

/-!
# Runtime/SynchronizedArray — handles that are closed while in use

`SynchronizedArray` of `runtime/SynchronizedArray.h`, the table of open files.  An element counts
the calls of `access` without their `done`; `remove` waits on the `Condition` of the element until
there are none, and the last `done` invalidates the index and signals.

Two things happen outside the lock.  `remove` reads the pointer that it returns through a reference
into the array.  And `store` sets the check bit and then the pointer of its index: the bit by
reading a word of the `vector<bool>` and writing it back, the pointer at the place where it has
found the array.  Each of these is a step of its own.
-/

namespace Kos

open Function Runs Blocking
open ManagedArray (offset)

/-- Where `store` is after its section.  `gen` is the place of the array that a write goes to,
`word` what has been read there. -/
inductive StorePc
  /-- before the check bit is set -/
  | setting
  | marking (gen : ℕ) (word : Fin 64 → Bool)
  /-- before the pointer is set -/
  | writing
  | placing (gen : ℕ)
  /-- before the `invalidate` of a null pointer -/
  | clearing
  | wiping (gen : ℕ) (word : Fin 64 → Bool)
  deriving DecidableEq

/-- The check bit has been set. -/
def StorePc.bit : StorePc → Bool
  | .setting | .marking _ _ => false
  | _ => true

/-- The next write changes a check bit. -/
def StorePc.marks : StorePc → Bool
  | .marking _ _ | .wiping _ _ => true
  | _ => false

/-- Where a thread is in a call; elements are numbers.  `gen` is the place of the array that the
reference of a `remove` points to. -/
inductive ArrayPc
  | idle
  | storing (i : ℕ) (elem : Option ℕ) (p : StorePc)
  /-- in `remove`, in `wait` -/
  | waiting (i gen elem : ℕ)
  /-- in `remove`, after the section -/
  | returning (i gen elem : ℕ)
  deriving DecidableEq

/-- The index whose check bit a `store` has set, while the `store` is not done with it. -/
def ArrayPc.sets : ArrayPc → Option ℕ
  | .storing i _ p => if p.bit then some i else none
  | _ => none

/-- The word with the check bit of a `store`. -/
def ArrayPc.word : ArrayPc → Option ℕ
  | .storing i _ _ => some (i / 64)
  | _ => none

/-- The word that the thread has read and will write back. -/
def ArrayPc.marks : ArrayPc → Option ℕ
  | .storing i _ p => if p.marks then some (i / 64) else none
  | _ => none

/-- The index that a thread has to itself. -/
def ArrayPc.at (pc : ArrayPc) (i : ℕ) : Prop :=
  match pc with
  | .storing j _ _ | .waiting j _ _ | .returning j _ _ => i = j
  | .idle => False

theorem ArrayPc.at_unique {pc : ArrayPc} {i j : ℕ} (hi : pc.at i) (hj : pc.at j) : i = j := by
  cases pc with
  | idle => exact absurd hi id
  | storing | waiting | returning => exact hi.trans hj.symm

/-- A `SynchronizedArray` and its threads; the blocking queue of an element is its `Condition`.
`users` are the calls of `access` without their `done`, `owners` the successful calls of `remove`
without their `release`, with the element returned.  `stored` are the elements passed to `store` so
far, `place` is the last one for each index, and `returns` are the results of the calls of `remove`
that found an element, each with the element that was stored at the index. -/
structure SynchronizedArray (τ : Type) where
  b : Blocking ℕ τ
  array : ManagedArray ℕ
  count : ℕ → ℕ
  pc : τ → ArrayPc
  users : List (τ × ℕ)
  owners : List (τ × ℕ × ℕ)
  stored : List ℕ
  place : ℕ → Option ℕ
  returns : List (Option ℕ × Option ℕ)
  failed : Bool

namespace SynchronizedArray

variable {τ : Type} [DecidableEq τ]

inductive Action (τ : Type)
  /-- `store`, up to the release of the lock -/
  | store (t : τ) (elem : Option ℕ)
  /-- `store` reads a word of check bits, or where the array is -/
  | load (t : τ)
  /-- `store` writes the word back, or the pointer -/
  | write (t : τ)
  | access (t : τ) (i : ℕ)
  | done (t : τ) (i : ℕ)
  /-- `remove`, up to the release of the lock or to `wait` -/
  | remove (t : τ) (i : ℕ)
  /-- `wait` returns -/
  | waited (t : τ)
  /-- `remove` returns -/
  | finish (t : τ)
  | release (t : τ) (i : ℕ)
  | advance (c : Claim τ)

def init (n : ℕ) : SynchronizedArray τ :=
  ⟨Blocking.init, .init n, fun _ => 0, fun _ => .idle, [], [], [], fun _ => none, [], false⟩

variable (m : SynchronizedArray τ)

section

variable (t : τ)

def move (pc : ArrayPc) : SynchronizedArray τ :=
  { m with pc := update m.pc t pc }

/-- An assertion has failed. -/
def fail : SynchronizedArray τ := { m with failed := true }

/-- `store` of an element that is not in use, up to the release of the lock. -/
def store (elem : Option ℕ) : SynchronizedArray τ :=
  let r := m.array.reserve
  if m.array.checkbits r.1 then m.fail
  else
    { m.move t (.storing r.1 elem .setting) with
      array := r.2
      stored := elem.toList ++ m.stored
      place := update m.place r.1 elem }

/-- What `store` reads outside the lock, after the assertions of `set` and `invalidate`. -/
def load (i : ℕ) (elem : Option ℕ) : StorePc → Option (SynchronizedArray τ)
  | .setting =>
    some (if m.array.clear i then
      m.move t (.storing i elem (.marking m.array.gen (m.array.word i))) else m.fail)
  | .writing => some (m.move t (.storing i elem (.placing m.array.gen)))
  | .clearing =>
    some (if m.array.valid i then
      m.move t (.storing i elem (.wiping m.array.gen (m.array.word i))) else m.fail)
  | _ => none

/-- A write to the array that was at the place `gen`; the one at an old place is freed. -/
def writeAt (gen : ℕ) (array : ManagedArray ℕ) : SynchronizedArray τ :=
  if gen = m.array.gen then { m with array } else m

/-- What `store` writes outside the lock. -/
def write (i : ℕ) (elem : Option ℕ) : StorePc → Option (SynchronizedArray τ)
  | .marking gen word =>
    some ((m.writeAt gen (m.array.setWord i (update word (offset i) true))).move t
      (.storing i elem .writing))
  | .placing gen =>
    some ((m.writeAt gen (m.array.setData i elem)).move t
      (if elem = none then .storing i elem .clearing else .idle))
  | .wiping gen word =>
    some ((m.writeAt gen (m.array.setWord i (update word (offset i) false))).move t .idle)
  | _ => none

/-- The element that `access` and `done` and `remove` find at an index. -/
def find (i : ℕ) : Option ℕ :=
  if m.array.valid i then m.array.data i else none

/-- The result of `access`. -/
def accessed (i : ℕ) : Option ℕ :=
  (m.find i).filter fun e => (m.b.queue e).isEmpty

def access (i : ℕ) : SynchronizedArray τ :=
  if m.array.valid i = true ∧ m.array.data i = none then m.fail
  else
    match m.accessed i with
    | none => m
    | some e =>
      { m with count := update m.count e (wadd (m.count e) 1), users := (t, i) :: m.users }

/-- `done` for the element `e`. -/
def doneWith (i e : ℕ) : SynchronizedArray τ :=
  let m := { m with count := update m.count e (m.count e - 1), users := m.users.erase (t, i) }
  if m.count e = 0 ∧ m.b.queue e ≠ [] then
    { m with array := m.array.setBit i false, b := (m.b.resume e).2 }
  else m

def done (i : ℕ) : SynchronizedArray τ :=
  match m.find i with
  | none => m.fail
  | some e => if m.count e = 0 then m.fail else m.doneWith t i e

def remove (i : ℕ) : SynchronizedArray τ :=
  if m.array.valid i then
    match m.array.data i with
    | none => m.fail
    | some e =>
      if m.count e > 0 then
        let r := m.b.block t e limit
        { m.move t (if r.1 then .waiting i m.array.gen e else .returning i m.array.gen e) with
          b := r.2 }
      else { m.move t (.returning i m.array.gen e) with array := m.array.setBit i false }
  else m

/-- What the reference of a `remove` points to now. -/
def read (i gen : ℕ) : Option ℕ :=
  if gen = m.array.gen then m.array.data i else none

def returned (i gen : ℕ) : SynchronizedArray τ :=
  { m.move t .idle with
    returns := (m.place i, m.read i gen) :: m.returns
    owners := ((m.read i gen).toList.map fun e => (t, i, e)) ++ m.owners }

end

def step : Action τ → Option (SynchronizedArray τ)
  | .store t elem =>
    if m.pc t = .idle ∧ ∀ e ∈ elem.toList, e ∉ m.stored then some (m.store t elem) else none
  | .load t =>
    match m.pc t with
    | .storing i elem p => m.load t i elem p
    | _ => none
  | .write t =>
    match m.pc t with
    | .storing i elem p => m.write t i elem p
    | _ => none
  | .access t i => if m.pc t = .idle then some (m.access t i) else none
  | .done t i => if m.pc t = .idle ∧ (t, i) ∈ m.users then some (m.done t i) else none
  | .remove t i => if m.pc t = .idle then some (m.remove t i) else none
  | .waited t =>
    match m.pc t with
    | .waiting i gen e =>
      if m.b.pc t = .ready then some { m.move t (.returning i gen e) with b := m.b.dispatch t }
      else none
    | _ => none
  | .finish t =>
    match m.pc t with
    | .returning i gen _ => some (m.returned t i gen)
    | _ => none
  | .release t i =>
    match m.owners.find? fun o => o.1 = t ∧ o.2.1 = i with
    | none => none
    | some o =>
      if m.pc t = .idle then
        some (if m.array.clear i then
          { m with array := m.array.internalRemove i, owners := m.owners.erase o } else m.fail)
      else none
  | .advance c => if c ∈ m.b.calls then some { m with b := m.b.advance c } else none

/-! ## The condition -/

/-- No `store` is between the check bit and the pointer of the index. -/
def Settled (i : ℕ) : Prop := ∀ t, (m.pc t).sets ≠ some i

/-- No `store` is between its section and its last write in the word of the index. -/
def WordFree (i : ℕ) : Prop := ∀ t, (m.pc t).word ≠ some (i / 64)

/-- What the steps must respect.  The array does not move while a `store` or a `remove` is under way
outside the lock, and no check bit in the word of such a `store` is changed by another thread.  An
index is used only when its `store` has set the pointer, by less than `2 ^ 64` threads; and an
element is removed only when no other `remove` waits for it. -/
def Kept : Action τ → Prop
  | .store _ _ => m.array.grows = true → ∀ t, m.pc t = .idle
  | .write t => ∀ w ∈ (m.pc t).marks.toList, ∀ u, u ≠ t → (m.pc u).word ≠ some w
  | .access _ i => m.Settled i ∧ ∀ e ∈ (m.find i).toList, m.count e + 1 < wordSize
  | .done _ i => ∀ e ∈ (m.find i).toList, m.count e = 1 → m.b.queue e ≠ [] → m.WordFree i
  | .remove _ i =>
    m.Settled i ∧ ∀ e ∈ (m.find i).toList, m.b.queue e = [] ∧ (m.count e = 0 → m.WordFree i)
  | _ => True

instance [Fintype τ] (m : SynchronizedArray τ) (i : ℕ) : Decidable (m.Settled i) :=
  inferInstanceAs (Decidable (∀ _, _))

instance [Fintype τ] (m : SynchronizedArray τ) (i : ℕ) : Decidable (m.WordFree i) :=
  inferInstanceAs (Decidable (∀ _, _))

instance [Fintype τ] (m : SynchronizedArray τ) : ∀ a, Decidable (m.Kept a)
  | .store _ _ => inferInstanceAs (Decidable (_ → _))
  | .write _ | .done _ _ => inferInstanceAs (Decidable (∀ _ ∈ _, _))
  | .access _ _ | .remove _ _ => inferInstanceAs (Decidable (_ ∧ _))
  | .load _ | .waited _ | .finish _ | .release _ _ | .advance _ => inferInstanceAs (Decidable True)

end SynchronizedArray

end Kos

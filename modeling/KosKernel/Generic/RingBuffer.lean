import Mathlib.Data.List.Basic
import Mathlib.Data.Nat.ModEq

/-!
# Generic/RingBuffer — a bounded queue in an array

`RingBuffer` of `generic/Buffers.h`: `count` elements of an array of `maxSize`, from `next` on and
round the end.  `toList` is the queue that the buffer stands for.  The indices are plain numbers: an
array has less than `2 ^ 63` elements, so `next + count` does not wrap.
-/

namespace Kos

open Function

structure RingBuffer (α : Type) where
  next : ℕ
  count : ℕ
  maxSize : ℕ
  array : ℕ → α

namespace RingBuffer

variable {α : Type}

/-- The constructor; the array is not initialised. -/
def init (n : ℕ) (array : ℕ → α) : RingBuffer α := ⟨0, 0, n, array⟩

variable (q : RingBuffer α)

def empty : Bool := q.count == 0

def full : Bool := q.count == q.maxSize

/-- `front`; `none` if its assertion fails. -/
def front : Option α := if q.empty then none else some (q.array q.next)

/-- `push`; `none` if its assertion fails. -/
def push (x : α) : Option (RingBuffer α) :=
  if q.full then none
  else some { q with
    array := update q.array ((q.next + q.count) % q.maxSize) x
    count := q.count + 1 }

/-- `pop`; `none` if its assertion fails. -/
def pop : Option (RingBuffer α) :=
  if q.empty then none else some { q with next := (q.next + 1) % q.maxSize, count := q.count - 1 }

/-- The elements, the first one in front. -/
def toList : List α :=
  (List.range q.count).map fun i => q.array ((q.next + i) % q.maxSize)

@[simp] theorem length_toList : q.toList.length = q.count := by simp [toList]

@[simp] theorem toList_init (n : ℕ) (array : ℕ → α) : (init n array).toList = [] := rfl

/-- Two places of the array less than `m` apart are different. -/
theorem index_inj {n i j m : ℕ} (hi : i < m) (hj : j < m) (h : (n + i) % m = (n + j) % m) : i = j :=
  Nat.ModEq.eq_of_lt_of_lt (Nat.ModEq.add_left_cancel' n h) hi hj

/-- The indices are in range. -/
structure Wf (q : RingBuffer α) : Prop where
  count : q.count ≤ q.maxSize
  next : 0 < q.maxSize → q.next < q.maxSize

theorem wf_init (n : ℕ) (array : ℕ → α) : (init n array).Wf := ⟨Nat.zero_le n, id⟩

variable {q q' : RingBuffer α} {x : α}

/-- **`push` appends**; its assertion fails only if the buffer is full. -/
theorem Wf.push (hq : q.Wf) (h : q.count < q.maxSize) :
    ∃ q', q.push x = some q' ∧ q'.Wf ∧ q'.maxSize = q.maxSize ∧ q'.toList = q.toList ++ [x] := by
  have hfull : ¬q.full = true := by simpa [full] using Nat.ne_of_lt h
  refine ⟨{ q with
    array := update q.array ((q.next + q.count) % q.maxSize) x
    count := q.count + 1 }, if_neg hfull, ⟨h, hq.next⟩, rfl, ?_⟩
  simp only [toList]
  rw [List.range_succ, List.map_append, List.map_singleton, update_self]
  congr 1
  refine List.map_congr_left fun i hi => update_of_ne (fun heq => ?_) _ _
  have hlt : i < q.count := List.mem_range.mp hi
  exact absurd (index_inj (hlt.trans h) h heq) (Nat.ne_of_lt hlt)

/-- **`front` and `pop` take the first element**; their assertions fail only if the buffer is
empty. -/
theorem Wf.pop (hq : q.Wf) (h : 0 < q.count) : ∃ x q', q.front = some x ∧ q.pop = some q' ∧ q'.Wf ∧
    q'.maxSize = q.maxSize ∧ q.toList = x :: q'.toList := by
  have hempty : ¬q.empty = true := by simpa [empty] using Nat.ne_of_gt h
  have hmax : 0 < q.maxSize := Nat.lt_of_lt_of_le h hq.count
  obtain ⟨n, hn⟩ := Nat.exists_eq_add_one_of_ne_zero (Nat.ne_of_gt h)
  refine ⟨q.array q.next, { q with next := (q.next + 1) % q.maxSize, count := q.count - 1 },
    if_neg hempty, if_neg hempty, ⟨(Nat.sub_le _ _).trans hq.count, Nat.mod_lt _⟩, rfl, ?_⟩
  simp only [toList, hn, Nat.add_sub_cancel]
  rw [List.range_succ_eq_map, List.map_cons, List.map_map, Nat.add_zero,
    Nat.mod_eq_of_lt (hq.next hmax)]
  refine congrArg (List.cons _) (List.map_congr_left fun i _ => congrArg q.array ?_)
  show (q.next + (i + 1)) % q.maxSize = ((q.next + 1) % q.maxSize + i) % q.maxSize
  rw [Nat.mod_add_mod, Nat.add_assoc, Nat.add_comm 1 i]

end RingBuffer

end Kos

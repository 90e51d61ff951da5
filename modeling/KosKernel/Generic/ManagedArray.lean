import Mathlib.Data.Finset.Card

/-!
# Generic/ManagedArray — an array that knows its free fields

`ManagedArray` of `generic/ManagedArray.h` over pointers.  A field is reserved, set, invalidated and
released; the released fields form a stack that is linked through the fields themselves.  When no
field is left, the array moves to a new place of twice the size: `gen` numbers the places, and a
reference into an old one dangles.  `none` in `data` is a null pointer, or something that is no
pointer to an element.  Allocation succeeds.

Used through `put` and `remove` alone, the array is a finite partial map (`Sound`, `lookup`).
-/

namespace Kos

open Function

structure ManagedArray (α : Type) where
  gen : ℕ
  data : ℕ → Option α
  checkbits : ℕ → Bool
  index : ℕ
  capacity : ℕ
  freestack : List ℕ

namespace ManagedArray

variable {α : Type}

/-- The constructor with `n` fields. -/
def init (n : ℕ) : ManagedArray α := ⟨0, fun _ => none, fun _ => false, 0, n, []⟩

variable (a : ManagedArray α)

def valid (i : ℕ) : Bool := decide (i < a.index) && a.checkbits i

def clear (i : ℕ) : Bool := decide (i < a.index) && !a.checkbits i

/-- `reserveIndex` will move the array. -/
def grows : Bool := a.freestack.isEmpty && decide (a.capacity ≤ a.index)

/-- The array at its new place; the old fields are copied. -/
def grow : ManagedArray α :=
  { a with
    gen := a.gen + 1
    data := fun i => if i < a.capacity then a.data i else none
    capacity := if a.capacity = 0 then 1 else a.capacity * 2 }

/-- Take the next field that has never been used. -/
def bump : ℕ × ManagedArray α := (a.index, { a with index := a.index + 1 })

/-- `reserveIndex`, without its assertions. -/
def reserve : ℕ × ManagedArray α :=
  match a.freestack with
  | i :: rest => (i, { a with freestack := rest })
  | [] => if a.capacity > a.index then a.bump else a.grow.bump

def setBit (i : ℕ) (v : Bool) : ManagedArray α :=
  { a with checkbits := update a.checkbits i v }

def setData (i : ℕ) (x : Option α) : ManagedArray α :=
  { a with data := update a.data i x }

/-- The word of the `vector<bool>` with the check bit of `i`. -/
def word (i : ℕ) : Fin 64 → Bool := fun k => a.checkbits (64 * (i / 64) + k)

/-- The place of the check bit of `i` in its word. -/
def offset (i : ℕ) : Fin 64 := Fin.ofNat 64 i

def setWord (i : ℕ) (w : Fin 64 → Bool) : ManagedArray α :=
  { a with checkbits := fun j => if j / 64 = i / 64 then w (offset j) else a.checkbits j }

/-- `internalRemove`: the link of the free stack goes where the pointer was. -/
def internalRemove (i : ℕ) : ManagedArray α :=
  { a.setData i none with freestack := i :: a.freestack }

/-- `size()`; `freecount` is the length of the free stack. -/
def size : ℕ := a.index - a.freestack.length

/-- `put`: the field, and the array. -/
def put (x : α) : ℕ × ManagedArray α :=
  let r := a.reserve
  (r.1, (r.2.setBit r.1 true).setData r.1 (some x))

/-- `remove`, of a field that is `valid`. -/
def remove (i : ℕ) : ManagedArray α := (a.setBit i false).internalRemove i

/-! ## The partial map -/

/-- An array that only `put` and `remove` have changed: its free fields are those on the stack. -/
structure Sound (a : ManagedArray α) : Prop where
  mem_freestack : ∀ i, i ∈ a.freestack ↔ i < a.index ∧ a.checkbits i = false
  nodup : a.freestack.Nodup
  above : ∀ i, a.checkbits i = true → i < a.index
  bound : a.index ≤ a.capacity
  data : ∀ i, a.checkbits i = true → a.data i ≠ none

/-- What `get` returns. -/
def lookup (a : ManagedArray α) (i : ℕ) : Option α := if a.valid i then a.data i else none

variable {a : ManagedArray α} {i j : ℕ} {x : α}

theorem word_apply (hj : j / 64 = i / 64) : a.word i (offset j) = a.checkbits j := by
  have hadd : 64 * (i / 64) + j % 64 = j := by omega
  rw [word, offset, Fin.val_ofNat, hadd]

/-- A word that is still as it was read is written back with one bit changed. -/
theorem setWord_update {w : Fin 64 → Bool}
    (hw : ∀ j, j / 64 = i / 64 → w (offset j) = a.checkbits j) (v : Bool) :
    a.setWord i (update w (offset i) v) = a.setBit i v := by
  rw [setWord, setBit]
  congr 1
  funext j
  by_cases hji : j = i
  · simp [hji]
  · rw [update_of_ne hji]
    split
    · have hne : offset j ≠ offset i := by
        rw [Ne, Fin.ext_iff, offset, offset, Fin.val_ofNat, Fin.val_ofNat]
        omega
      rw [update_of_ne hne]
      exact hw j ‹_›
    · rfl

theorem valid_iff : a.valid i ↔ i < a.index ∧ a.checkbits i = true := by simp [valid]

theorem lookup_eq_some : a.lookup i = some x ↔ a.valid i = true ∧ a.data i = some x := by
  rw [lookup, Option.ite_none_right_eq_some]

theorem lt_index (h : a.lookup i = some x) : i < a.index := (valid_iff.mp (lookup_eq_some.mp h).1).1

theorem sound_init (n : ℕ) : (init n : ManagedArray α).Sound :=
  ⟨by simp [init], List.nodup_nil, nofun, Nat.zero_le n, nofun⟩

theorem lookup_init (n i : ℕ) : (init n : ManagedArray α).lookup i = none := by
  simp [init, lookup, valid]

theorem Sound.valid (h : a.Sound) : a.valid i ↔ a.checkbits i = true := by
  rw [valid_iff]
  exact ⟨And.right, fun hi => ⟨h.above i hi, hi⟩⟩

/-- A valid field holds an element. -/
theorem Sound.exists_data (h : a.Sound) (hi : a.valid i) : ∃ x, a.data i = some x :=
  Option.ne_none_iff_exists'.mp (h.data i (h.valid.mp hi))

theorem Sound.lookup_eq (h : a.Sound) (i : ℕ) : a.lookup i = if a.checkbits i = true then a.data i
      else none := by
  rw [lookup]
  exact if_congr h.valid rfl rfl

theorem Sound.lookup_ne_none (h : a.Sound) : a.lookup i ≠ none ↔ a.checkbits i = true := by
  rw [h.lookup_eq]
  split
  case isTrue hi => exact iff_of_true (h.data i hi) hi
  case isFalse hi => exact iff_of_false (fun hne => hne rfl) hi

/-- What `reserveIndex` does, whichever way it takes. -/
theorem Sound.reserve (h : a.Sound) :
    a.checkbits a.reserve.1 = false ∧ a.reserve.2.checkbits = a.checkbits ∧
      (∀ j, j < a.reserve.2.index ↔ j < a.index ∨ j = a.reserve.1) ∧
      a.reserve.2.freestack = a.freestack.erase a.reserve.1 ∧
      a.reserve.2.index ≤ a.reserve.2.capacity ∧
      ∀ j, a.checkbits j = true → a.reserve.2.data j = a.data j := by
  have hbound := h.bound
  have hnew : a.checkbits a.index = false := by
    by_contra hbit
    exact absurd (h.above a.index (by simpa using hbit)) (lt_irrefl _)
  rw [ManagedArray.reserve]
  split
  case h_1 i rest hfree =>
    obtain ⟨hi, hbit⟩ := (h.mem_freestack i).mp (by simp [hfree])
    refine ⟨hbit, rfl, fun j => ?_, by simp [hfree], hbound, fun _ _ => rfl⟩
    show j < a.index ↔ _
    constructor
    · exact Or.inl
    · rintro (hj | rfl)
      · exact hj
      · exact hi
  case h_2 hfree =>
    split
    case isTrue hcap =>
      exact ⟨hnew, rfl, fun j => Nat.lt_succ_iff_lt_or_eq, by simp [bump, hfree], hcap,
        fun _ _ => rfl⟩
    case isFalse hcap =>
      refine ⟨hnew, rfl, fun j => Nat.lt_succ_iff_lt_or_eq, by simp [bump, grow, hfree], ?_,
        fun j hj => ?_⟩
      · simp only [bump, grow]
        split <;> omega
      · exact if_pos ((h.above j hj).trans_le hbound)

theorem put_data (a : ManagedArray α) (x : α) :
    (a.put x).2.data = update a.reserve.2.data a.reserve.1 (some x) := rfl

theorem Sound.put_checkbits (h : a.Sound) (x : α) :
    (a.put x).2.checkbits = update a.checkbits a.reserve.1 true := by
  rw [← h.reserve.2.1]
  rfl

theorem Sound.put (h : a.Sound) (x : α) : (a.put x).2.Sound := by
  obtain ⟨-, -, hindex, hfree, hcap, hdata⟩ := h.reserve
  have hbits := h.put_checkbits x
  refine ⟨fun j => ?_, ?_, fun j hj => ?_, hcap, fun j hj => ?_⟩
  · show j ∈ a.reserve.2.freestack ↔ j < a.reserve.2.index ∧ _
    rw [hfree, h.nodup.mem_erase_iff, h.mem_freestack, hindex, hbits]
    by_cases hj : j = a.reserve.1
    · simp [hj]
    · simp [hj]
  · show a.reserve.2.freestack.Nodup
    rw [hfree]
    exact h.nodup.erase _
  · show j < a.reserve.2.index
    rw [hbits] at hj
    by_cases hji : j = a.reserve.1
    · exact (hindex j).mpr (.inr hji)
    · rw [update_of_ne hji] at hj
      exact (hindex j).mpr (.inl (h.above j hj))
  · rw [hbits] at hj
    rw [put_data]
    by_cases hji : j = a.reserve.1
    · simp [hji]
    · rw [update_of_ne hji] at hj ⊢
      rw [hdata j hj]
      exact h.data j hj

/-- **`put` adds an element.** -/
theorem Sound.lookup_put (h : a.Sound) (x : α) :
    (a.put x).2.lookup = update a.lookup (a.put x).1 (some x) := by
  funext j
  rw [(h.put x).lookup_eq, h.put_checkbits, put_data]
  show _ = update a.lookup a.reserve.1 (some x) j
  by_cases hji : j = a.reserve.1
  · rw [hji, update_self, update_self, update_self, if_pos rfl]
  · rw [update_of_ne hji, update_of_ne hji, update_of_ne hji, h.lookup_eq]
    split
    case isTrue hj => exact h.reserve.2.2.2.2.2 j hj
    case isFalse => rfl

/-- The field of `put` was free. -/
theorem Sound.lookup_fresh (h : a.Sound) (x : α) : a.lookup (a.put x).1 = none := by
  rw [h.lookup_eq]
  exact if_neg (by rw [show (a.put x).1 = a.reserve.1 from rfl, h.reserve.1]; simp)

theorem Sound.remove (h : a.Sound) (hi : a.lookup i ≠ none) : (a.remove i).Sound := by
  have hbit := h.lookup_ne_none.mp hi
  have hmem : i ∉ a.freestack := by simp [h.mem_freestack, hbit]
  have hkeep {j : ℕ} (hj : (a.remove i).checkbits j = true) : j ≠ i ∧ a.checkbits j = true := by
    change update a.checkbits i false j = true at hj
    by_cases hji : j = i
    · simp [hji] at hj
    · exact ⟨hji, by rwa [update_of_ne hji] at hj⟩
  refine ⟨fun j => ?_, List.nodup_cons.mpr ⟨hmem, h.nodup⟩, fun j hj => h.above j (hkeep hj).2,
    h.bound, fun j hj => ?_⟩
  · show j ∈ i :: a.freestack ↔ j < a.index ∧ update a.checkbits i false j = false
    rw [List.mem_cons, h.mem_freestack]
    by_cases hji : j = i
    · simp [hji, h.above i hbit]
    · simp [hji]
  · show update a.data i none j ≠ none
    rw [update_of_ne (hkeep hj).1]
    exact h.data j (hkeep hj).2

/-- **`remove` takes the element out.** -/
theorem Sound.lookup_remove (h : a.Sound) (hi : a.lookup i ≠ none) :
    (a.remove i).lookup = update a.lookup i none := by
  funext j
  rw [(h.remove hi).lookup_eq]
  show (if update a.checkbits i false j = true then update a.data i none j else none) = _
  by_cases hji : j = i
  · simp [hji]
  · rw [update_of_ne hji, update_of_ne hji, update_of_ne hji, h.lookup_eq]

theorem Sound.size_eq_card (h : a.Sound) :
    a.size = ((Finset.range a.index).filter fun i => a.checkbits i = true).card := by
  have hfree : a.freestack.toFinset = (Finset.range a.index).filter fun i =>
      ¬a.checkbits i = true := by
    ext i
    simp [h.mem_freestack]
  have hsum := Finset.card_filter_add_card_filter_not (s := Finset.range a.index)
    (p := fun i => a.checkbits i = true)
  rw [← hfree, List.toFinset_card_of_nodup h.nodup, Finset.card_range] at hsum
  rw [size]
  omega

/-- **`size` counts the elements.** -/
theorem Sound.size_le_one (h : a.Sound) : a.size ≤ 1 ↔ ∀ i j, a.lookup i ≠ none →
      a.lookup j ≠ none → i = j := by
  simp only [h.size_eq_card, Finset.card_le_one, Finset.mem_filter, Finset.mem_range,
    h.lookup_ne_none]
  constructor
  · intro hone i j hi hj
    exact hone i ⟨h.above i hi, hi⟩ j ⟨h.above j hj, hj⟩
  · intro hone i hi j hj
    exact hone i j hi.2 hj.2

end ManagedArray

end Kos

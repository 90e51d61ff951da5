import KosKernel.Generic.ManagedArray
import KosKernel.Lib.Links
import KosKernel.Lib.Runs
import KosKernel.Machine.Memory
import KosKernel.Machine.SpinLock

/-!
# Generic/FreeStack — the managed array as it lies in memory

`ManagedArray` keeps its released fields on a stack that is linked through the fields themselves.
Here a field holds an element or a link, and a link is a pointer: it names the allocation it points
into.  When the array moves, the fields are copied as they are, and a link would still point to the
old place.

That never matters, because the array only moves when the stack is empty.  The model in
`Generic/ManagedArray` (`Represents`), where the stack is a list, is therefore what clients see, and
over any calls the array knows of each index whether it is in use: `handles_sound`.

Two calls are outside of this.  `get` with a second argument puts the field on the stack but leaves
its check bit set (`getInto_removes_iff`), and a `put` or `store` for which there is no memory uses
the error value of `reserveIndex` as an index (`clean_iff`).
-/

namespace Kos

open Function Runs Links

/-- A `Free*`: the allocation that it points into, and the field there. -/
structure FieldPtr where
  place : ℕ
  field : ℕ
  deriving DecidableEq

/-- What a field holds; `blank` is memory that has not been written. -/
inductive ArraySlot (α : Type)
  | elem (x : α)
  | link (next : Option FieldPtr)
  | blank
  deriving DecidableEq

def ArraySlot.elem? {α : Type} : ArraySlot α → Option α
  | .elem x => some x
  | .link _ | .blank => none

def ArraySlot.link? {α : Type} : ArraySlot α → Option (Option FieldPtr)
  | .link next => some next
  | .elem _ | .blank => none

/-- A `ManagedArray`; `bits` is `checkbits.size()`. -/
structure LinkedArray (α : Type) where
  place : ℕ
  data : ℕ → ArraySlot α
  freestack : Option FieldPtr
  index : ℕ
  capacity : ℕ
  freecount : ℕ
  checkbits : ℕ → Bool
  bits : ℕ

namespace LinkedArray

variable {α : Type}

/-! ## The code -/

/-- More fields do not fit into memory, since a field has at least eight bytes. -/
def maxFields : ℕ := 2 ^ 61

/-- `allocate`, where `none` is a null pointer. -/
def allocate (n : ℕ) (place : Option ℕ) : Option ℕ := if n ≤ maxFields then place else none

/-- The constructor with `n` fields. -/
def init (n : ℕ) : LinkedArray α := ⟨0, fun _ => .blank, none, 0, n, 0, fun _ => false, n⟩

variable (a : LinkedArray α)

def valid (i : ℕ) : Bool := decide (i < a.index) && a.checkbits i

def clear (i : ℕ) : Bool := decide (i < a.index) && !a.checkbits i

def size : ℕ := wsub a.index a.freecount

/-- `internalSet`, where both the bit and the field have to exist. -/
def internalSet (i : ℕ) (x : α) : Except Fault (LinkedArray α) :=
  if i < a.bits ∧ i < a.capacity then
    .ok { a with checkbits := update a.checkbits i true, data := update a.data i (.elem x) }
  else .error .outOfBounds

def internalRemove (i : ℕ) : LinkedArray α :=
  { a with
    data := update a.data i (.link a.freestack)
    freestack := some ⟨a.place, i⟩
    freecount := a.freecount + 1 }

/-- What the field holds that a `Free*` points to. -/
def follow (p : FieldPtr) : Option (Option FieldPtr) :=
  if p.place = a.place then (a.data p.field).link? else none

/-- The two branches of `reserveIndex` that return without growth; `none` stands for the third one.
It is a fault to follow a pointer that does not point to a link of this array. -/
def take : Option (Except Fault (ℕ × LinkedArray α)) :=
  match a.freestack with
  | some p => some <| match a.follow p with
    | some next =>
      if a.checkbits p.field then .error .kassert
      else .ok (p.field, { a with freestack := next, freecount := a.freecount - 1 })
    | none => .error .outOfBounds
  | none =>
    if a.capacity > a.index then
      some (if a.checkbits a.index then .error .kassert
        else .ok (a.index, { a with index := a.index + 1 }))
    else none

def newCapacity : ℕ := if a.capacity = 0 then 1 else a.capacity * 2

/-- `checkbits.resize(newCapacity, false)`. -/
def resize : LinkedArray α :=
  { a with checkbits := fun i => if i < a.bits then a.checkbits i else false,
           bits := a.newCapacity }

/-- The fields are copied to a new place. -/
def moved (place : ℕ) : LinkedArray α :=
  { a with
    place := place
    data := fun i => if i < a.capacity then a.data i else .blank
    capacity := a.newCapacity }

/-- `reserveIndex`; after a growth there is an unused field, so that the recursive call does not
grow again. -/
def reserveIndex (place : Option ℕ) : Except Fault (ℕ × LinkedArray α) :=
  match a.take with
  | some result => result
  | none =>
    match allocate a.newCapacity place with
    | none => .ok (limit, a.resize)
    | some p => (a.resize.moved p).take.getD (.error .diverge)

def set (i : ℕ) (x : α) : Except Fault (LinkedArray α) :=
  if a.clear i then a.internalSet i x else .error .kassert

def put (x : α) (place : Option ℕ) : Except Fault (ℕ × LinkedArray α) := do
  let (i, a) ← a.reserveIndex place
  let a ← a.internalSet i x
  return (i, a)

/-- `get(idx)`. -/
def get (i : ℕ) : Except Fault (ArraySlot α) :=
  if a.valid i then .ok (a.data i) else .error .kassert

def invalidate (i : ℕ) : Except Fault (LinkedArray α) :=
  if a.valid i then .ok { a with checkbits := update a.checkbits i false } else .error .kassert

def release (i : ℕ) : Except Fault (LinkedArray α) :=
  if a.clear i then .ok (a.internalRemove i) else .error .kassert

def remove (i : ℕ) : Except Fault (LinkedArray α) := do
  let a ← a.invalidate i
  return a.internalRemove i

/-- `get(idx, elem)`, where `none` is `false`. -/
def getInto (i : ℕ) : Option (ArraySlot α × LinkedArray α) :=
  if a.valid i then some (a.data i, a.internalRemove i) else none

/-- `store` of `SynchronizedArray`, whose elements are pointers. -/
def store (a : LinkedArray (Option α)) (elem : Option α) (place : Option ℕ) :
    Except Fault (ℕ × LinkedArray (Option α)) := do
  let (i, a) ← a.reserveIndex place
  let a ← a.set i elem
  let a ← if elem.isNone then a.invalidate i else pure a
  return (i, a)

end LinkedArray

/-! ## What each index is used for -/

/-- The last thing that has happened to an index.  An index that is invalidated is reserved
again. -/
inductive Usage (α : Type)
  | unused
  | reserved
  | valid (x : α)
  | released
  deriving DecidableEq

/-- `put` and `reserveIndex` may return the index. -/
def Usage.Free {α : Type} : Usage α → Prop
  | .unused | .released => True
  | .reserved | .valid _ => False

namespace ManagedArray

variable {α : Type} {a : ManagedArray α} {use : ℕ → Usage α} {i j : ℕ} {x : α}

/-- The array agrees with the history of its indices. -/
structure Tracks (a : ManagedArray α) (use : ℕ → Usage α) : Prop where
  mem_freestack : ∀ i, i ∈ a.freestack ↔ use i = .released
  nodup : a.freestack.Nodup
  unused : ∀ i, use i = .unused ↔ a.index ≤ i
  checkbits : ∀ i, a.checkbits i = true ↔ ∃ x, use i = .valid x
  data : ∀ i x, use i = .valid x → a.data i = some x
  bound : a.index ≤ a.capacity

theorem tracks_init (n : ℕ) : (init n : ManagedArray α).Tracks fun _ => .unused :=
  ⟨by simp [init], List.nodup_nil, by simp [init], by simp [init], by simp, Nat.zero_le n⟩

theorem Tracks.lt_index (h : a.Tracks use) (hi : use i ≠ .unused) : i < a.index :=
  not_le.mp fun hle => hi ((h.unused i).mpr hle)

theorem Tracks.checkbits_of (h : a.Tracks use) (hi : ∀ x, use i ≠ .valid x) :
    a.checkbits i = false := by
  by_contra hbit
  obtain ⟨x, hx⟩ := (h.checkbits i).mp (by simpa using hbit)
  exact hi x hx

/-- **One index changes**, and everything about the others stays. -/
theorem Tracks.change {b : ManagedArray α} {u : Usage α} (h : a.Tracks use) (hi : use i ≠ .unused)
    (hu : u ≠ .unused) (hindex : b.index = a.index) (hcap : b.capacity = a.capacity)
    (hnodup : b.freestack.Nodup)
    (hfree : ∀ j, j ∈ b.freestack ↔ if j = i then u = .released else j ∈ a.freestack)
    (hbit : b.checkbits i = true ↔ ∃ x, u = .valid x)
    (hdata : ∀ x, u = .valid x → b.data i = some x)
    (hframe : ∀ j ≠ i, b.checkbits j = a.checkbits j ∧ b.data j = a.data j) :
    b.Tracks (update use i u) := by
  refine ⟨fun j => ?_, hnodup, fun j => ?_, fun j => ?_,
    fun j x hj => ?_, by rw [hindex, hcap]; exact h.bound⟩
  · rw [hfree]
    by_cases hji : j = i
    · simp [hji]
    · simp [hji, h.mem_freestack]
  · rw [hindex]
    by_cases hji : j = i
    · have hlt := h.lt_index hi
      simp [hji, hu, hlt]
    · simp [hji, h.unused]
  · by_cases hji : j = i
    · simp [hji, hbit]
    · simp [hji, (hframe j hji).1, h.checkbits]
  · by_cases hji : j = i
    · rw [hji] at hj ⊢
      exact hdata x (by simpa using hj)
    · rw [update_of_ne hji] at hj
      rw [(hframe j hji).2]
      exact h.data j x hj

/-- The next index that has never been used. -/
theorem Tracks.bump {b : ManagedArray α} (h : a.Tracks use) (hfree : b.freestack = a.freestack)
    (hindex : b.index = a.index) (hbits : b.checkbits = a.checkbits)
    (hdata : ∀ i < a.index, b.data i = a.data i) (hcap : b.index < b.capacity) :
    b.bump.2.Tracks (update use a.index .reserved) := by
  have hnew : use a.index = .unused := (h.unused a.index).mpr le_rfl
  refine ⟨fun i => ?_, by simpa [ManagedArray.bump, hfree] using h.nodup, fun i => ?_, fun i => ?_,
    fun i x hi => ?_, hcap⟩
  · by_cases hi : i = a.index
    · simp [ManagedArray.bump, hfree, hi, h.mem_freestack, hnew]
    · simp [ManagedArray.bump, hfree, hi, h.mem_freestack]
  · by_cases hi : i = a.index
    · simp [ManagedArray.bump, hindex, hi]
    · rw [update_of_ne hi, h.unused]
      simp only [ManagedArray.bump, hindex]
      omega
  · by_cases hi : i = a.index
    · simp [ManagedArray.bump, hbits, hi, h.checkbits_of (i := a.index) (by simp [hnew])]
    · simp [ManagedArray.bump, hbits, hi, h.checkbits]
  · by_cases hia : i = a.index
    · simp [hia] at hi
    · rw [update_of_ne hia] at hi
      exact (hdata i (h.lt_index (by simp [hi]))).trans (h.data i x hi)

/-- **`reserveIndex`** takes an index that is free. -/
theorem Tracks.reserve (h : a.Tracks use) :
    (use a.reserve.1).Free ∧ a.reserve.2.Tracks (update use a.reserve.1 .reserved) := by
  have hnew : use a.index = .unused := (h.unused a.index).mpr le_rfl
  have hbound := h.bound
  rw [ManagedArray.reserve]
  split
  case h_1 i rest hfree =>
    have hi : use i = .released := (h.mem_freestack i).mp (by simp [hfree])
    obtain ⟨hnotin, hrest⟩ := List.nodup_cons.mp (hfree ▸ h.nodup)
    refine ⟨by simp [Usage.Free, hi],
      h.change (by simp [hi]) (by simp) rfl rfl hrest (fun j => ?_) ?_ (by simp)
      fun j _ => ⟨rfl, rfl⟩⟩
    · by_cases hji : j = i
      · simp [hji, hnotin]
      · simp [hji, hfree]
    · simp [h.checkbits_of (i := i) (by simp [hi])]
  case h_2 hfree =>
    split
    case isTrue hcap =>
      exact ⟨by simp [ManagedArray.bump, Usage.Free, hnew],
        h.bump rfl rfl rfl (fun _ _ => rfl) hcap⟩
    case isFalse hcap =>
      refine ⟨by simp [ManagedArray.bump, grow, Usage.Free, hnew],
        h.bump rfl rfl rfl (fun i hi => ?_) ?_⟩
      · exact if_pos (hi.trans_le hbound)
      · simp only [grow]
        split <;> omega

/-- `internalSet` on a reserved index. -/
theorem Tracks.fill (h : a.Tracks use) (hi : use i = .reserved) (x : α) :
    ((a.setBit i true).setData i (some x)).Tracks (update use i (.valid x)) := by
  refine h.change (by simp [hi]) (by simp) rfl rfl h.nodup (fun j => ?_) (by simp [setBit, setData])
    (by simp [setBit, setData]) fun j hji => by simp [setBit, setData, hji]
  by_cases hji : j = i
  · simp [setBit, setData, hji, h.mem_freestack, hi]
  · simp [setBit, setData, hji]

/-- `invalidate`. -/
theorem Tracks.invalidate (h : a.Tracks use) (hi : use i = .valid x) :
    (a.setBit i false).Tracks (update use i .reserved) := by
  refine h.change (by simp [hi]) (by simp) rfl rfl h.nodup (fun j => ?_) (by simp [setBit])
    (by simp) fun j hji => by simp [setBit, hji]
  by_cases hji : j = i
  · simp [setBit, hji, h.mem_freestack, hi]
  · simp [setBit, hji]

/-- `internalRemove` of a reserved index. -/
theorem Tracks.release (h : a.Tracks use) (hi : use i = .reserved) :
    (a.internalRemove i).Tracks (update use i .released) := by
  have hfree : i ∉ a.freestack := by simp [h.mem_freestack, hi]
  refine h.change (by simp [hi]) (by simp) rfl rfl (List.nodup_cons.mpr ⟨hfree, h.nodup⟩)
    (fun j => ?_) ?_ (by simp) fun j hji => by simp [internalRemove, setData, hji]
  · by_cases hji : j = i
    · simp [internalRemove, hji]
    · simp [internalRemove, hji]
  · simp [internalRemove, setData, h.checkbits_of (i := i) (by simp [hi])]

/-- The indices up to `index` are on the stack, or not free. -/
theorem Tracks.card_add_length (h : a.Tracks use) :
    ∃ S : Finset ℕ, (∀ i, i ∈ S ↔ ¬ (use i).Free) ∧ a.freestack.length + S.card = a.index := by
  classical
  refine ⟨(Finset.range a.index).filter fun i => ¬ (use i).Free, fun i => ?_, ?_⟩
  · rw [Finset.mem_filter, Finset.mem_range, and_iff_right_iff_imp]
    exact fun hi => h.lt_index fun hu => hi (by simp [Usage.Free, hu])
  · have hfree : a.freestack.toFinset = (Finset.range a.index).filter fun i => (use i).Free := by
      ext i
      rw [List.mem_toFinset, h.mem_freestack, Finset.mem_filter, Finset.mem_range]
      constructor
      · intro hi
        exact ⟨h.lt_index (by simp [hi]), by simp [Usage.Free, hi]⟩
      · rintro ⟨hlt, hi⟩
        have hne : use i ≠ .unused := fun hu => absurd ((h.unused i).mp hu) (not_le.mpr hlt)
        cases hu : use i with
        | unused => exact absurd hu hne
        | released => rfl
        | reserved | valid => simp [Usage.Free, hu] at hi
    have hsum := Finset.card_filter_add_card_filter_not (s := Finset.range a.index)
      (p := fun i => (use i).Free)
    rwa [← hfree, List.toFinset_card_of_nodup h.nodup, Finset.card_range] at hsum

end ManagedArray

namespace LinkedArray

variable {α : Type} {r r' : LinkedArray α} {a : ManagedArray α} {use : ℕ → Usage α} {i j : ℕ}
  {x : α}
  {place : Option ℕ}

/-! ## The list of free fields -/

/-- The array in memory and the array with a list. -/
structure Represents (r : LinkedArray α) (a : ManagedArray α) : Prop where
  data : ∀ i, a.data i = (r.data i).elem?
  checkbits : a.checkbits = r.checkbits
  index : a.index = r.index
  capacity : a.capacity = r.capacity
  chain : Chain r.follow r.freestack (a.freestack.map (FieldPtr.mk r.place))
  freecount : r.freecount = a.freestack.length
  bits : r.capacity ≤ r.bits
  small : r.capacity ≤ maxFields

/-- There is no field left, and no memory for more. -/
def fails (r : LinkedArray α) (place : Option ℕ) : Bool :=
  r.freestack.isNone && decide (r.capacity ≤ r.index) && (allocate r.newCapacity place).isNone

theorem represents_init {n : ℕ} (hn : n ≤ maxFields) :
    (init n : LinkedArray α).Represents (.init n) :=
  ⟨fun _ => rfl, rfl, rfl, rfl, rfl, rfl, le_rfl, hn⟩

theorem follow_mk (r : LinkedArray α) (i : ℕ) : r.follow ⟨r.place, i⟩ = (r.data i).link? :=
  if_pos rfl

/-- Another field than those on the stack is written. -/
theorem follow_update {d : ArraySlot α} (hi : i ∉ a.freestack) (hplace : r'.place = r.place)
    (hdata : r'.data = update r.data i d) :
    ∀ p ∈ a.freestack.map (FieldPtr.mk r.place), r'.follow p = r.follow p := by
  intro p hp
  obtain ⟨j, hj, rfl⟩ := List.mem_map.mp hp
  have hji : j ≠ i := fun he => hi (he ▸ hj)
  rw [follow_mk, ← hplace, follow_mk, hdata, update_of_ne hji]

theorem Represents.internalSet (h : r.Represents a) (hi : i < r.capacity) (hfree : i ∉ a.freestack)
    (x : α) :
    ∃ r', r.internalSet i x = .ok r' ∧ r'.Represents ((a.setBit i true).setData i (some x)) := by
  refine ⟨_, if_pos ⟨hi.trans_le h.bits, hi⟩, fun j => ?_, ?_, h.index, h.capacity, ?_, h.freecount,
    h.bits, h.small⟩
  · by_cases hji : j = i
    · simp [ManagedArray.setBit, ManagedArray.setData, hji, ArraySlot.elem?]
    · simp [ManagedArray.setBit, ManagedArray.setData, hji, h.data]
  · simp [ManagedArray.setBit, ManagedArray.setData, h.checkbits]
  · exact h.chain.congr (follow_update hfree rfl rfl)

theorem Represents.internalRemove (h : r.Represents a) (hfree : i ∉ a.freestack) :
    (r.internalRemove i).Represents (a.internalRemove i) := by
  refine { h with data := fun j => ?_, chain := ?_, freecount := ?_ }
  · by_cases hji : j = i
    · simp [LinkedArray.internalRemove, ManagedArray.internalRemove, ManagedArray.setData, hji,
        ArraySlot.elem?]
    · simp [LinkedArray.internalRemove, ManagedArray.internalRemove, ManagedArray.setData, hji,
        h.data]
  · refine h.chain.push ?_ (follow_update hfree rfl rfl)
    rw [show (r.internalRemove i).follow ⟨r.place, i⟩ = _ from follow_mk (r.internalRemove i) i]
    simp [LinkedArray.internalRemove, ArraySlot.link?]
  · simp [LinkedArray.internalRemove, ManagedArray.internalRemove, h.freecount]

theorem Represents.setBit (h : r.Represents a) (v : Bool) :
    ({ r with checkbits := update r.checkbits i v } : LinkedArray α).Represents (a.setBit i v) :=
  { h with checkbits := by simp [ManagedArray.setBit, h.checkbits] }

/-- The bits of `checkbits` that are added are clear, like those behind the last index. -/
theorem Represents.resize (h : r.Represents a) (ht : a.Tracks use) : r.resize.Represents a := by
  refine { h with checkbits := ?_, bits := ?_ }
  · funext i
    show a.checkbits i = if i < r.bits then r.checkbits i else false
    rw [← h.checkbits]
    split_ifs with hi
    · rfl
    · refine ht.checkbits_of fun x hx => hi ?_
      have hlt := ht.lt_index (i := i) (by simp [hx])
      exact ((hlt.trans_le ht.bound).trans_le h.capacity.le).trans_le h.bits
  · show r.capacity ≤ r.newCapacity
    rw [newCapacity]
    split <;> omega

/-- The first branch of `reserveIndex`: the field on the top holds the link to the others. -/
theorem Represents.take_pop {rest : List ℕ} (h : r.Represents a) (hstack : a.freestack = i :: rest)
    (hbit : r.checkbits i = false) :
    ∃ r', r.take = some (.ok (i, r')) ∧ r'.Represents { a with freestack := rest } := by
  have hchain := h.chain
  rw [hstack, List.map_cons] at hchain
  obtain ⟨htop, next, hnext, hrest⟩ := hchain
  refine ⟨{ r with freestack := next, freecount := r.freecount - 1 }, ?_, ?_⟩
  · rw [take, htop]
    simp only [hnext, hbit, Bool.false_eq_true, if_false]
  · refine { h with chain := hrest, freecount := ?_ }
    show r.freecount - 1 = rest.length
    rw [h.freecount, hstack, List.length_cons, Nat.add_sub_cancel]

theorem Represents.freestack_eq_none (h : r.Represents a) (hstack : a.freestack = []) :
    r.freestack = none := by
  have hchain := h.chain
  rwa [hstack, List.map_nil, chain_nil] at hchain

/-- The second branch. -/
theorem Represents.take_bump (h : r.Represents a) (hstack : a.freestack = [])
    (hcap : r.index < r.capacity) (hbit : r.checkbits r.index = false) :
    ∃ r', r.take = some (.ok (a.index, r')) ∧ r'.Represents a.bump.2 := by
  refine ⟨{ r with index := r.index + 1 }, ?_, h.data, h.checkbits, ?_, h.capacity, h.chain,
    h.freecount, h.bits, h.small⟩
  · rw [take, h.freestack_eq_none hstack, h.index]
    simp only [gt_iff_lt, hcap, if_true, hbit, Bool.false_eq_true, if_false]
  · exact congrArg (· + 1) h.index

/-- The third branch moves an array without free fields, so that no link is left behind. -/
theorem Represents.moved {p : ℕ} (h : r.Represents a) (hstack : a.freestack = [])
    (hbits : r.newCapacity ≤ r.bits) (hsmall : r.newCapacity ≤ maxFields) :
    (r.moved p).Represents a.grow := by
  refine ⟨fun i => ?_, h.checkbits, h.index, ?_, ?_, h.freecount, hbits, hsmall⟩
  · show (if i < a.capacity then a.data i else none) =
        (if i < r.capacity then r.data i else .blank).elem?
    rw [h.capacity, h.data]
    split <;> rfl
  · show (if a.capacity = 0 then 1 else a.capacity * 2) = r.newCapacity
    rw [h.capacity, newCapacity]
  · show Chain _ r.freestack (a.freestack.map _)
    rw [h.freestack_eq_none hstack, hstack]
    rfl

theorem lt_newCapacity (h : r.index ≤ r.capacity) : r.index < r.newCapacity := by
  rw [newCapacity]
  split <;> omega

/-- **`reserveIndex`** in memory, with room or with memory for more. -/
theorem Represents.reserve (h : r.Represents a) (ht : a.Tracks use)
    (hroom : r.fails place = false) : ∃ r', r.reserveIndex place = .ok (a.reserve.1, r') ∧
      r'.Represents a.reserve.2 := by
  have hbit : ∀ i, (use i).Free → r.checkbits i = false := fun i hi => by
    rw [← h.checkbits]
    exact ht.checkbits_of fun x hx => by simp [Usage.Free, hx] at hi
  cases hstack : a.freestack with
  | cons i rest =>
    have hi : use i = .released := (ht.mem_freestack i).mp (by simp [hstack])
    obtain ⟨r', htake, hr'⟩ := h.take_pop hstack (hbit i (by simp [Usage.Free, hi]))
    rw [ManagedArray.reserve, hstack]
    exact ⟨r', by rw [reserveIndex, htake], hr'⟩
  | nil =>
    have hnew : r.checkbits r.index = false := by
      rw [← h.index]
      exact hbit a.index (by simp [Usage.Free, (ht.unused a.index).mpr le_rfl])
    by_cases hcap : r.capacity > r.index
    · obtain ⟨r', htake, hr'⟩ := h.take_bump hstack hcap hnew
      rw [ManagedArray.reserve, hstack]
      simp only [h.capacity, h.index, hcap, if_true]
      exact ⟨r', by rw [reserveIndex, htake]; rfl, hr'⟩
    · have hnone := h.freestack_eq_none hstack
      have hle : r.index ≤ r.capacity := by
        rw [← h.index, ← h.capacity]
        exact ht.bound
      obtain ⟨p, hp⟩ : ∃ p, allocate r.newCapacity place = some p := by
        rw [fails, hnone, decide_eq_true (not_lt.mp hcap)] at hroom
        exact Option.isSome_iff_exists.mp (by simpa using hroom)
      have hsmall : r.newCapacity ≤ maxFields := by
        rw [allocate] at hp
        by_contra hbig
        rw [if_neg hbig] at hp
        cases hp
      have hz := h.resize ht
      have hm : (r.resize.moved p).Represents a.grow := hz.moved hstack le_rfl hsmall
      have hbit' : r.resize.checkbits r.index = false := by rw [← hz.checkbits, h.checkbits, hnew]
      obtain ⟨r', htake, hr'⟩ := hm.take_bump hstack (lt_newCapacity hle) hbit'
      have htake0 : r.take = none := by
        rw [take, hnone]
        simp [hcap]
      rw [ManagedArray.reserve, hstack]
      simp only [h.capacity, h.index, hcap, if_false]
      refine ⟨r', ?_, hr'⟩
      rw [reserveIndex, htake0, hp]
      simp only [htake, Option.getD_some]
      rfl

/-- Without room and memory, `reserveIndex` returns the largest number. -/
theorem reserveIndex_of_fails (h : r.fails place = true) :
    r.reserveIndex place = .ok (limit, r.resize) := by
  simp only [fails, Bool.and_eq_true, Option.isNone_iff_eq_none, decide_eq_true_eq] at h
  obtain ⟨⟨hnone, hcap⟩, halloc⟩ := h
  have htake : r.take = none := by
    rw [take, hnone]
    simp [hcap]
  rw [reserveIndex, htake, halloc]

/-- **`put`** in memory. -/
theorem Represents.put (h : r.Represents a) (ht : a.Tracks use) (hroom : r.fails place = false)
    (x : α) : ∃ r', r.put x place = .ok ((a.put x).1, r') ∧ r'.Represents (a.put x).2 ∧
      (a.put x).2.Tracks (update use (a.put x).1 (.valid x)) := by
  obtain ⟨r₁, hres, hr₁⟩ := h.reserve ht hroom
  have ht₁ := ht.reserve.2
  have hreserved : update use a.reserve.1 .reserved a.reserve.1 = .reserved := update_self ..
  have hlt : a.reserve.1 < r₁.capacity := by
    rw [← hr₁.capacity]
    exact (ht₁.lt_index (by simp)).trans_le ht₁.bound
  obtain ⟨r', hset, hr'⟩ := hr₁.internalSet hlt (by simp [ht₁.mem_freestack]) x
  refine ⟨r', ?_, hr', ?_⟩
  · rw [LinkedArray.put, hres]
    show (r₁.internalSet a.reserve.1 x).bind _ = _
    rw [hset]
    rfl
  · have hfill := ht₁.fill hreserved x
    rwa [update_idem] at hfill

end LinkedArray

/-! ## Any calls -/

/-- An array, and what its indices are used for. -/
structure HandleArray (α : Type) where
  array : LinkedArray α
  use : ℕ → Usage α

/-- A call, with the place that `allocate` returns if it is asked. -/
inductive HandleCall (α : Type)
  | put (x : α) (place : Option ℕ)
  | reserveIndex (place : Option ℕ)
  | set (i : ℕ) (x : α)
  | get (i : ℕ)
  | invalidate (i : ℕ)
  | release (i : ℕ)
  | remove (i : ℕ)

namespace HandleArray

variable {α : Type} {h h' : HandleArray α} {i n : ℕ} {x : α} {place : Option ℕ}

def init (n : ℕ) : HandleArray α := ⟨.init n, fun _ => .unused⟩

def reserved (h : HandleArray α) (i : ℕ) : Bool :=
  match h.use i with
  | .reserved => true
  | _ => false

/-- A call that passes its assertions.  `put` is not called when there is no memory left, `set` and
`release` only on reserved indices. -/
def step (h : HandleArray α) : HandleCall α → Option (HandleArray α)
  | .put x place =>
    if h.array.fails place then none
    else (h.array.put x place).toOption.map fun (i, a) => ⟨a, update h.use i (.valid x)⟩
  | .reserveIndex place => (h.array.reserveIndex place).toOption.map fun (i, a) =>
      ⟨a, if h.array.fails place then h.use else update h.use i .reserved⟩
  | .set i x =>
    if h.reserved i then (h.array.set i x).toOption.map fun a => ⟨a, update h.use i (.valid x)⟩
      else none
  | .get i => (h.array.get i).toOption.map fun _ => h
  | .invalidate i => (h.array.invalidate i).toOption.map fun a => ⟨a, update h.use i .reserved⟩
  | .release i =>
    if h.reserved i then (h.array.release i).toOption.map fun a => ⟨a, update h.use i .released⟩
      else none
  | .remove i => (h.array.remove i).toOption.map fun a => ⟨a, update h.use i .released⟩

/-- The array stands for one that agrees with the history. -/
def Consistent (h : HandleArray α) : Prop := ∃ a, h.array.Represents a ∧ a.Tracks h.use

theorem reserved_iff : h.reserved i = true ↔ h.use i = .reserved := by
  rw [reserved]
  split
  · simp_all
  · simp_all

open LinkedArray (Represents)

theorem Consistent.valid_iff (hc : h.Consistent) : h.array.valid i = true ↔
      ∃ x, h.use i = .valid x := by
  obtain ⟨a, hr, ht⟩ := hc
  rw [LinkedArray.valid, ← hr.checkbits, ← hr.index, Bool.and_eq_true, decide_eq_true_eq,
    ht.checkbits]
  exact and_iff_right_of_imp fun ⟨x, hx⟩ => ht.lt_index (by simp [hx])

/-- **One call** keeps the array in agreement with its history. -/
theorem consistent_step {c : HandleCall α} (hc : h.Consistent) (hstep : h.step c = some h') :
    h'.Consistent := by
  have hvalid := fun i => hc.valid_iff (i := i)
  obtain ⟨a, hr, ht⟩ := hc
  cases c with
  | put x place =>
    rw [step] at hstep
    split_ifs at hstep with hroom
    obtain ⟨r', hput, hr', ht'⟩ := hr.put ht (Bool.eq_false_of_not_eq_true hroom) x
    rw [hput] at hstep
    cases hstep
    exact ⟨_, hr', ht'⟩
  | reserveIndex place =>
    rw [step] at hstep
    cases hroom : h.array.fails place with
    | true =>
      rw [LinkedArray.reserveIndex_of_fails hroom] at hstep
      cases hstep
      exact ⟨a, hr.resize ht, by simpa [hroom] using ht⟩
    | false =>
      obtain ⟨r', hres, hr'⟩ := hr.reserve ht hroom
      rw [hres] at hstep
      cases hstep
      exact ⟨_, hr', by simpa [hroom] using ht.reserve.2⟩
  | set i x =>
    rw [step] at hstep
    split_ifs at hstep with hi
    have hi := reserved_iff.mp hi
    rw [LinkedArray.set] at hstep
    split_ifs at hstep
    · have hlt : i < h.array.capacity := by
        rw [← hr.capacity]
        exact (ht.lt_index (by simp [hi])).trans_le ht.bound
      obtain ⟨r', hset, hr'⟩ := hr.internalSet hlt (by simp [ht.mem_freestack, hi]) x
      rw [hset] at hstep
      cases hstep
      exact ⟨_, hr', ht.fill hi x⟩
    · cases hstep
  | get i =>
    rw [step] at hstep
    cases hget : h.array.get i with
    | error => rw [hget] at hstep; cases hstep
    | ok =>
      rw [hget] at hstep
      cases hstep
      exact ⟨a, hr, ht⟩
  | invalidate i =>
    rw [step, LinkedArray.invalidate] at hstep
    split_ifs at hstep with hi
    · obtain ⟨x, hx⟩ := (hvalid i).mp hi
      cases hstep
      exact ⟨_, hr.setBit false, ht.invalidate hx⟩
    · cases hstep
  | release i =>
    rw [step] at hstep
    split_ifs at hstep with hi
    have hi := reserved_iff.mp hi
    rw [LinkedArray.release] at hstep
    split_ifs at hstep
    · cases hstep
      exact ⟨_, hr.internalRemove (by simp [ht.mem_freestack, hi]), ht.release hi⟩
    · cases hstep
  | remove i =>
    rw [step, LinkedArray.remove, LinkedArray.invalidate] at hstep
    split_ifs at hstep with hi
    · obtain ⟨x, hx⟩ := (hvalid i).mp hi
      cases hstep
      have ht' := ht.invalidate hx
      have hrel := ht'.release (i := i) (by simp)
      rw [update_idem] at hrel
      exact ⟨_, (hr.setBit false).internalRemove (by simp [ht'.mem_freestack]), hrel⟩
    · cases hstep

theorem consistent_run {as : List (HandleCall α)} (hn : n ≤ LinkedArray.maxFields)
    (hrun : run step (init n) as = some h) : h.Consistent :=
  invariant consistent_step ⟨_, LinkedArray.represents_init hn, ManagedArray.tracks_init n⟩ hrun

/-- **The array knows which indices are in use**, whatever has been called. -/
theorem handles_sound {as : List (HandleCall α)} (hn : n ≤ LinkedArray.maxFields)
    (hrun : run step (init n) as = some h) :
    (∀ place, h.array.fails place = false →
      (∃ i a, h.array.reserveIndex place = .ok (i, a) ∧ (h.use i).Free) ∧
        ∀ x, ∃ i a, h.array.put x place = .ok (i, a) ∧ (h.use i).Free) ∧
    (∀ i, h.array.valid i = true ↔ ∃ x, h.use i = .valid x) ∧
    (∀ i x, h.use i = .valid x → h.array.get i = .ok (.elem x)) ∧
    (∃ l : List ℕ, Chain h.array.follow h.array.freestack (l.map (FieldPtr.mk h.array.place)) ∧
      l.Nodup ∧ ∀ i, i ∈ l ↔ h.use i = .released) ∧
    ∃ S : Finset ℕ, (∀ i, i ∈ S ↔ h.use i = .reserved ∨ ∃ x, h.use i = .valid x) ∧
      h.array.size = S.card := by
  have hc := consistent_run hn hrun
  have hvalid := fun i => hc.valid_iff (i := i)
  obtain ⟨a, hr, ht⟩ := hc
  refine ⟨fun place hroom => ⟨?_, fun x => ?_⟩, hvalid, fun i x hi => ?_, ?_, ?_⟩
  · obtain ⟨r', hres, -⟩ := hr.reserve ht hroom
    exact ⟨_, r', hres, ht.reserve.1⟩
  · obtain ⟨r', hput, -⟩ := hr.put ht hroom x
    exact ⟨_, r', hput, ht.reserve.1⟩
  · have hdata := (hr.data i).symm.trans (ht.data i x hi)
    rw [LinkedArray.get, if_pos ((hvalid i).mpr ⟨x, hi⟩)]
    cases hslot : h.array.data i with
    | elem y =>
      rw [hslot] at hdata
      rw [Option.some.inj hdata]
    | link | blank => rw [hslot] at hdata; cases hdata
  · exact ⟨a.freestack, hr.chain, ht.nodup, ht.mem_freestack⟩
  · obtain ⟨S, hS, hcard⟩ := ht.card_add_length
    refine ⟨S, fun i => ?_, ?_⟩
    · rw [hS]
      cases h.use i <;> simp [Usage.Free]
    · have hsmall : a.index < wordSize :=
        (ht.bound.trans (hr.capacity ▸ hr.small)).trans_lt (by decide)
      rw [LinkedArray.size, ← hr.index, hr.freecount, wsub_of_le hsmall (by omega)]
      omega

/-- The array moves twice, and an index comes back. -/
theorem handles_sound_regrown :
    ∃ h : HandleArray ℕ,
      run step (init 1) [.put 5 none, .put 6 (some 1), .put 7 (some 2), .get 0, .remove 1,
        .reserveIndex none, .set 1 8, .invalidate 0, .release 0] = some h ∧
      (h.array.size = 2 ∧ h.array.capacity = 4) ∧ h.array.get 1 = .ok (.elem 8) :=
  exists_run_and (by decide +kernel) fun _ hrun _ => (handles_sound (by decide) hrun).2.2.1 1 8
    (by cases hrun; rfl)

end HandleArray

namespace LinkedArray

variable {α β : Type}

/-! ## `get` with a second argument -/

/-- Calls of `put`, and of `reserveIndex` where there is no element, one after the other. -/
def takes (a : LinkedArray α) : List (Option α × Option ℕ) → Except Fault (LinkedArray α)
  | [] => .ok a
  | (some x, place) :: cs => (a.put x place).bind fun r => r.2.takes cs
  | (none, place) :: cs => (a.reserveIndex place).bind fun r => r.2.takes cs

/-- **`get` removes nothing**: it does what it should only where it returns `false`. -/
theorem getInto_removes_iff (a : LinkedArray α) (i : ℕ) :
    (∀ x a', a.getInto i = some (x, a') →
      x = a.data i ∧ a'.valid i = false ∧ a'.getInto i = none ∧ a'.size + 1 = a.size ∧
        ∀ cs, a'.takes cs ≠ .error .kassert) ↔ a.valid i = false := by
  constructor
  · intro hremoves
    by_contra hvalid
    have hvalid : a.valid i = true := by simpa using hvalid
    obtain ⟨-, hnot, -⟩ := hremoves (a.data i) (a.internalRemove i) (if_pos hvalid)
    -- the bit is what it was
    exact absurd (hvalid.symm.trans hnot) (by decide)
  · intro hnot x a' hget
    rw [getInto, hnot] at hget
    cases hget

theorem getInto_removes_nothing : (init 1 : LinkedArray ℕ).valid 0 = false :=
  (getInto_removes_iff (init 1) 0).mp fun x a' h => by cases h

/-- The element can be taken out again, and the field is handed out while its bit is set. -/
theorem getInto_twice : ∃ a a' : LinkedArray ℕ,
    (init 1).put 7 none = .ok (0, a) ∧ a.getInto 0 = some (.elem 7, a') ∧ a'.valid 0 = true ∧
      (a'.getInto 0).isSome = true ∧ a'.takes [(none, none)] = .error .kassert :=
  ⟨_, _, rfl, rfl, rfl, rfl, rfl⟩

/-! ## Without memory -/

/-- A call that asks for an index: it returns one, or it reports failure and leaves the array as it
was. -/
def Clean (a : LinkedArray α) (result : Except Fault (ℕ × LinkedArray α)) : Prop :=
  ∃ i a', result = .ok (i, a') ∧
    (i < a'.capacity ∨
      i = limit ∧ a'.data = a.data ∧ a'.checkbits = a.checkbits ∧ a'.index = a.index ∧
        a'.capacity = a.capacity ∧ a'.freestack = a.freestack)

variable {r : LinkedArray α} {place : Option ℕ}

theorem put_of_fails (h : r.fails place = true) (hsmall : r.capacity ≤ maxFields) (x : α) :
    r.put x place = .error .outOfBounds := by
  have hout : ¬ (limit < r.resize.bits ∧ limit < r.resize.capacity) := fun hlt =>
    absurd (hlt.2.trans_le hsmall) (by decide)
  rw [put, reserveIndex_of_fails h]
  show (r.resize.internalSet limit x).bind _ = _
  rw [internalSet, if_neg hout]
  rfl

theorem store_of_fails {r : LinkedArray (Option β)} (h : r.fails place = true)
    (hsmall : r.index ≤ maxFields) (elem : Option β) : r.store elem place = .error .kassert := by
  have hclear : r.resize.clear limit = false := by
    have hlt : ¬ limit < r.resize.index := fun hlt => absurd (hlt.trans_le hsmall) (by decide)
    rw [clear, decide_eq_false hlt, Bool.false_and]
  rw [store, reserveIndex_of_fails h]
  show (r.resize.set limit elem).bind _ = _
  rw [set, hclear]
  rfl

/-- **`store`** with room, or with memory for more. -/
theorem Represents.store {r : LinkedArray (Option β)} {a : ManagedArray (Option β)}
    {use : ℕ → Usage (Option β)} (h : r.Represents a) (ht : a.Tracks use)
    (hroom : r.fails place = false) (elem : Option β) :
    ∃ r', r.store elem place = .ok (a.reserve.1, r') ∧ a.reserve.1 < r'.capacity := by
  obtain ⟨r₁, hres, hr₁⟩ := h.reserve ht hroom
  have ht₁ := ht.reserve.2
  have hlt : a.reserve.1 < a.reserve.2.index := ht₁.lt_index (by simp)
  have hcap : a.reserve.1 < r₁.capacity := by
    rw [← hr₁.capacity]
    exact hlt.trans_le ht₁.bound
  have hclear : r₁.clear a.reserve.1 = true := by
    rw [clear, ← hr₁.index, decide_eq_true hlt, ← hr₁.checkbits, ht₁.checkbits_of (by simp)]
    rfl
  obtain ⟨r₂, hset, hr₂⟩ := hr₁.internalSet hcap (by simp [ht₁.mem_freestack]) elem
  have hcap₂ : a.reserve.1 < r₂.capacity := by
    rw [← hr₂.capacity]
    exact hlt.trans_le ht₁.bound
  have hvalid : r₂.valid a.reserve.1 = true := by
    rw [valid, ← hr₂.index, ← hr₂.checkbits]
    simp [ManagedArray.setBit, ManagedArray.setData, hlt]
  have hset' : r₁.set a.reserve.1 elem = .ok r₂ := by rw [set, hclear, if_pos rfl, hset]
  rw [LinkedArray.store, hres]
  show ∃ r', ((r₁.set a.reserve.1 elem).bind _) = _ ∧ _
  rw [hset']
  cases elem with
  | some x => exact ⟨r₂, rfl, hcap₂⟩
  | none =>
    refine ⟨{ r₂ with checkbits := update r₂.checkbits a.reserve.1 false }, ?_, hcap₂⟩
    show (r₂.invalidate a.reserve.1).bind _ = _
    rw [invalidate, hvalid]
    rfl

/-- **What a clean failure needs**: that there is none. -/
theorem clean_iff {n m : ℕ} {h : HandleArray α} {g : HandleArray (Option β)}
    {as : List (HandleCall α)} {bs : List (HandleCall (Option β))} (hn : n ≤ maxFields)
    (hrun : run HandleArray.step (.init n) as = some h) (hm : m ≤ maxFields)
    (hrun' : run HandleArray.step (.init m) bs = some g) (x : α) (elem : Option β)
    (place place' : Option ℕ) :
    (h.array.Clean (h.array.put x place) ↔ h.array.fails place = false) ∧
      (g.array.Clean (g.array.store elem place') ↔ g.array.fails place' = false) := by
  obtain ⟨a, hr, ht⟩ := HandleArray.consistent_run hn hrun
  obtain ⟨b, hr', ht'⟩ := HandleArray.consistent_run hm hrun'
  refine ⟨⟨?_, fun hroom => ?_⟩, ?_, fun hroom => ?_⟩
  · rintro ⟨i, a', hput, -⟩
    by_contra hfails
    rw [put_of_fails (by simpa using hfails) hr.small] at hput
    cases hput
  · obtain ⟨r', hput, hr₁, ht₁⟩ := hr.put ht hroom x
    refine ⟨_, r', hput, .inl ?_⟩
    rw [← hr₁.capacity]
    exact (ht₁.lt_index (by simp)).trans_le ht₁.bound
  · rintro ⟨i, a', hstore, -⟩
    by_contra hfails
    have hindex : g.array.index ≤ maxFields := by
      rw [← hr'.index]
      exact ht'.bound.trans (hr'.capacity.le.trans hr'.small)
    rw [store_of_fails (by simpa using hfails) hindex] at hstore
    cases hstore
  · obtain ⟨r', hstore, hlt⟩ := hr'.store ht' hroom elem
    exact ⟨_, r', hstore, .inl hlt⟩

theorem clean_grown :
    (init 0 : LinkedArray ℕ).Clean ((init 0).put 7 (some 1)) ∧
      (init 1 : LinkedArray (Option ℕ)).Clean ((init 1).store none none) :=
  have hclean :=
    clean_iff (n := 0) (m := 1) (by decide) (run_nil.mpr rfl) (by decide) (run_nil.mpr rfl) 7
    (none : Option ℕ) (some 1) none
  ⟨hclean.1.mpr rfl, hclean.2.mpr rfl⟩

/-- The index that stands for failure is written to, and `store` fails its assertion. -/
theorem put_beyond :
    (init 0 : LinkedArray ℕ).reserveIndex none = .ok (limit, (init 0).resize) ∧
      (init 0).put 7 none = .error .outOfBounds ∧
      (init 0 : LinkedArray (Option ℕ)).store (some 7) none = .error .kassert :=
  ⟨rfl, put_of_fails rfl (by decide) 7, store_of_fails rfl (by decide) (some 7)⟩

end LinkedArray

end Kos

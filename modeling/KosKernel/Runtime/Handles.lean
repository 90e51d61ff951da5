import KosKernel.Runtime.SynchronizedArray

/-!
# Runtime/Handles — every handle is closed once

An index of a `SynchronizedArray` goes round: it is free, reserved by a `store`, live, leaving with
the `remove` that gets its element, owned until its `release`, and free again.  `Status` is this
round, and every step moves one index along it, together with the thread that has the index to
itself.
-/

namespace Kos

open Function Runs Blocking
open ManagedArray (offset)

namespace SynchronizedArray

variable {τ : Type}

/-! ## The invariant -/

/-- The life of an index. -/
inductive Status (τ : Type)
  | unused
  | free
  | reserved (t : τ) (elem : Option ℕ) (bit : Bool)
  | live (e : ℕ)
  /-- invalidated, and about to be returned to `t` -/
  | leaving (t : τ) (e : ℕ)
  | owned (t : τ) (e : ℕ)
  /-- a null pointer was stored -/
  | lost

namespace Status

/-- The element at the index, until it is returned. -/
def elem : Status τ → Option ℕ
  | reserved _ elem _ => elem
  | live e | leaving _ e => some e
  | _ => none

/-- The check bit of the index. -/
def bit : Status τ → Bool
  | reserved _ _ bit => bit
  | live _ => true
  | _ => false

/-- The thread that has the index to itself, inside a call. -/
def holder : Status τ → Option τ
  | reserved t _ _ | leaving t _ => some t
  | _ => none

/-- The thread that has to release the index. -/
def owner : Status τ → Option (τ × ℕ)
  | owned t e => some (t, e)
  | _ => none

/-- The element that can be found at the index. -/
def found : Status τ → Option ℕ
  | live e => some e
  | _ => none

/-- The element that stands at the index. -/
def stands : Status τ → Option ℕ
  | live e | leaving _ e => some e
  | _ => none

theorem found_eq_some {s : Status τ} {e : ℕ} : s.found = some e ↔ s = live e := by
  cases s <;> simp [found]

end Status

/-- The array has its fields as the status of the indices says. -/
structure Fields (a : ManagedArray ℕ) (st : ℕ → Status τ) : Prop where
  index : ∀ i, st i = .unused ↔ a.index ≤ i
  free : ∀ i, i ∈ a.freestack ↔ st i = .free
  nodup : a.freestack.Nodup
  capacity : a.index ≤ a.capacity
  bits : ∀ i, a.checkbits i = (st i).bit
  data : ∀ i e, (st i).stands = some e → a.data i = some e

/-- Every element is at one index, and those that have been returned are at none. -/
structure Elements (place : ℕ → Option ℕ) (stored : List ℕ) (returns : List (Option ℕ × Option ℕ))
    (st : ℕ → Status τ) : Prop where
  placed : ∀ i e, (st i).elem = some e → place i = some e
  inj : ∀ i j e, (st i).elem = some e → (st j).elem = some e → i = j
  known : ∀ i e, (st i).elem = some e → e ∈ stored
  gone : ∀ r ∈ returns, ∃ e, r = (some e, some e) ∧ e ∈ stored ∧ ∀ i, (st i).elem ≠ some e
  once : (returns.map Prod.snd).Nodup

/-- The elements are used and owned as recorded. -/
structure Uses (count : ℕ → ℕ) (users : List (τ × ℕ)) (owners : List (τ × ℕ × ℕ))
    (st : ℕ → Status τ) : Prop where
  owned : ∀ t i e, (t, i, e) ∈ owners ↔ (st i).owner = some (t, e)
  nodup : owners.Nodup
  live : ∀ t i, (t, i) ∈ users → (st i).found ≠ none
  counted : ∀ i e, (st i).found = some e → count e = (users.filter (·.2 = i)).length
  zero : ∀ e, (∀ i, (st i).found ≠ some e) → count e = 0

/-- What a `store` of the index `i` has read outside the lock is still so. -/
def Current (gen : ℕ) (st : ℕ → Status τ) (i : ℕ) (elem : Option ℕ) : StorePc → Prop
  | .setting | .writing => True
  | .marking g word => g = gen ∧ ∀ j, j / 64 = i / 64 → word (offset j) = (st j).bit
  | .placing g => g = gen
  | .clearing => elem = none
  | .wiping g word => elem = none ∧ g = gen ∧ ∀ j, j / 64 = i / 64 → word (offset j) = (st j).bit

/-- What a thread in a call relies on. -/
def Relies (gen : ℕ) (b : Blocking ℕ τ) (ph : τ → Phase) (st : ℕ → Status τ) (t : τ) :
    ArrayPc → Prop
  | .idle => ph t = .out
  | .storing i elem p => ph t = .out ∧ st i = .reserved t elem p.bit ∧ Current gen st i elem p
  | .waiting i g e => g = gen ∧ (b.info t).queue = some e ∧
      (ph t = .blocked ∧ st i = .live e ∨ (ph t).granted = true ∧ st i = .leaving t e)
  | .returning i g e => ph t = .out ∧ g = gen ∧ st i = .leaving t e

/-- The threads are where the status of the indices says. -/
structure Calls (gen : ℕ) (b : Blocking ℕ τ) (pc : τ → ArrayPc) (ph : τ → Phase)
    (st : ℕ → Status τ) : Prop where
  relies : ∀ t, Relies gen b ph st t (pc t)
  held : ∀ i t, (st i).holder = some t → (pc t).at i

/-- **The invariant.** -/
structure Inv [DecidableEq τ] (m : SynchronizedArray τ) (ph : τ → Phase) (st : ℕ → Status τ) :
    Prop where
  rep : m.b.Rep ph
  running : ∀ t, m.b.state t = .running ∨ m.b.state t = .blocked
  fields : Fields m.array st
  elements : Elements m.place m.stored m.returns st
  uses : Uses m.count m.users m.owners st
  calls : Calls m.array.gen m.b m.pc ph st
  /-- at most one thread waits for an element -/
  waiter : ∀ t u e, ph t = .blocked → (m.b.info t).queue = some e → ph u = .blocked →
    (m.b.info u).queue = some e → t = u
  receipts : ∀ o ∈ m.owners, (some o.2.2, some o.2.2) ∈ m.returns
  failed : m.failed = false

variable {m m' : SynchronizedArray τ} {ph : τ → Phase} {st : ℕ → Status τ} {s : Status τ} {t u : τ}
  {i e gen : ℕ} {b : Blocking ℕ τ} {pc : τ → ArrayPc} {q : ArrayPc} {place : ℕ → Option ℕ}
  {stored : List ℕ} {returns : List (Option ℕ × Option ℕ)} {count : ℕ → ℕ} {users : List (τ × ℕ)}
  {owners : List (τ × ℕ × ℕ)}

theorem inv_init [DecidableEq τ] (n : ℕ) :
    Inv (init n : SynchronizedArray τ) (fun _ => .out) fun _ => .unused where
  rep := rep_init
  running _ := .inl rfl
  fields := ⟨by simp [init, ManagedArray.init], by simp [init, ManagedArray.init], List.nodup_nil,
    Nat.zero_le n, fun _ => rfl, by simp [Status.stands]⟩
  elements := ⟨by simp [Status.elem], by simp [Status.elem], by simp [Status.elem], by simp [init],
    List.nodup_nil⟩
  uses := ⟨by simp [init, Status.owner], List.nodup_nil, by simp [init], by simp [Status.found],
    by simp [init]⟩
  calls := ⟨fun _ => rfl, by simp [Status.holder]⟩
  waiter := by simp
  receipts := by simp [init]
  failed := rfl

/-! ### One index moves on -/

attribute [local grind =] update_apply
attribute [local grind] Status.elem Status.bit Status.owner Status.found Status.stands

theorem apply_update_eq {α : Type} {f : Status τ → α} (hs : f s = f (st i)) (j : ℕ) :
    f (update st i s j) = f (st j) := by
  grind

/-- The index keeps its element. -/
theorem Elements.updated (h : Elements place stored returns st) (hs : s.elem = (st i).elem) :
    Elements place stored returns (update st i s) := by
  have hst := apply_update_eq hs
  exact ⟨by simpa only [hst] using h.placed, by simpa only [hst] using h.inj,
    by simpa only [hst] using h.known, by simpa only [hst] using h.gone, h.once⟩

/-- The index keeps its users; its owner may change. -/
theorem Uses.chown {owners' : List (τ × ℕ × ℕ)} (h : Uses count users owners st)
    (hf : s.found = (st i).found) (hnodup : owners'.Nodup)
    (howned : ∀ t j e, (t, j, e) ∈ owners' ↔ (update st i s j).owner = some (t, e)) :
    Uses count users owners' (update st i s) := by
  have hfound := apply_update_eq hf
  exact ⟨howned, hnodup, by simpa only [hfound] using h.live,
    by simpa only [hfound] using h.counted, by simpa only [hfound] using h.zero⟩

/-- The index keeps its users and its owner. -/
theorem Uses.updated (h : Uses count users owners st) (hf : s.found = (st i).found)
    (ho : s.owner = (st i).owner) : Uses count users owners (update st i s) :=
  h.chown hf h.nodup (by simpa only [apply_update_eq ho] using h.owned)

/-- A thread at an index has it to itself, or waits there. -/
theorem Calls.holder_of_at (h : Calls gen b pc ph st) (hat : (pc u).at i) :
    (st i).holder = some u ∨ ∃ e, st i = .live e ∧ ph u = .blocked ∧ (b.info u).queue = some e := by
  have hrel := h.relies u
  generalize pc u = q at hrel hat
  cases q with
  | idle => exact absurd hat id
  | waiting j g e =>
    obtain rfl : i = j := hat
    obtain ⟨-, hq, ⟨hb, hst⟩ | ⟨-, hst⟩⟩ := hrel
    · exact .inr ⟨e, hst, hb, hq⟩
    · exact .inl (by rw [hst]; rfl)
  | storing j elem p =>
    obtain rfl : i = j := hat
    exact .inl (by rw [hrel.2.1]; rfl)
  | returning j g e =>
    obtain rfl : i = j := hat
    exact .inl (by rw [hrel.2.2]; rfl)

/-- A thread relies on its own index, and on the check bits of a word that it writes back. -/
theorem Relies.updated (h : Relies gen b ph st u q) (hat : ¬q.at i)
    (hword : q.word = some (i / 64) → s.bit = (st i).bit) :
    Relies gen b ph (update st i s) u q := by
  cases q with
  | idle => exact h
  | waiting j | returning j =>
    have hj : j ≠ i := fun hj => hat hj.symm
    simpa only [Relies, update_of_ne hj] using h
  | storing j elem p =>
    have hj : j ≠ i := fun hj => hat hj.symm
    have hbit : ∀ k, k / 64 = j / 64 → (update st i s k).bit = (st k).bit := by
      intro k hk
      have := fun hki : k = i => hword (congrArg some (hki ▸ hk.symm))
      grind
    obtain ⟨hout, hst, hcur⟩ := h
    refine ⟨hout, by rwa [update_of_ne hj], ?_⟩
    cases p with
    | setting | writing | placing | clearing => exact hcur
    | marking => exact ⟨hcur.1, fun k hk => (hcur.2 k hk).trans (hbit k hk).symm⟩
    | wiping => exact ⟨hcur.1, hcur.2.1, fun k hk => (hcur.2.2 k hk).trans (hbit k hk).symm⟩

/-- **The thread `t` moves on together with its index.** -/
theorem Calls.move [DecidableEq τ] (h : Calls gen b pc ph st)
    (hothers : ∀ u, u ≠ t → ¬(pc u).at i)
    (hword : ∀ u, u ≠ t → (pc u).word = some (i / 64) → s.bit = (st i).bit)
    (hown : ∀ j, (st j).holder = some t → j = i) (hrel : Relies gen b ph (update st i s) t q)
    (hs : ∀ u, s.holder = some u → u = t ∧ q.at i) :
    Calls gen b (update pc t q) ph (update st i s) where
  relies u := by
    by_cases hu : u = t
    · subst hu
      rwa [update_self]
    · rw [update_of_ne hu]
      exact (h.relies u).updated (hothers u hu) (hword u hu)
  held j u hj := by
    by_cases hji : j = i
    · subst hji
      rw [update_self] at hj
      obtain ⟨rfl, hat⟩ := hs u hj
      rwa [update_self]
    · rw [update_of_ne hji] at hj
      have hu : u ≠ t := by
        rintro rfl
        exact hji (hown j hj)
      rw [update_of_ne hu]
      exact h.held j u hj

/-- The same for an index that the thread has to itself. -/
theorem Calls.moveHeld [DecidableEq τ] (h : Calls gen b pc ph st) (hi : (st i).holder = some t)
    (hword : ∀ u, u ≠ t → (pc u).word = some (i / 64) → s.bit = (st i).bit)
    (hrel : Relies gen b ph (update st i s) t q) (hs : ∀ u, s.holder = some u → u = t ∧ q.at i) :
    Calls gen b (update pc t q) ph (update st i s) := by
  refine h.move (fun u hu hat => ?_) hword (fun j hj => ?_) hrel hs
  · obtain hu' | ⟨e, hlive, -⟩ := h.holder_of_at hat
    · exact hu (Option.some.inj (hu'.symm.trans hi))
    · simp [hlive, Status.holder] at hi
  · exact ArrayPc.at_unique (h.held j t hj) (h.held i t hi)

variable {a : ManagedArray ℕ}

/-- A field of the array changes as the status of its index does. -/
theorem Fields.updated {a' : ManagedArray ℕ} (h : Fields a st)
    (hold : st i ≠ .unused ∧ st i ≠ .free) (hnew : s ≠ .unused ∧ s ≠ .free)
    (hindex : a'.index = a.index) (hfree : a'.freestack = a.freestack)
    (hcap : a'.capacity = a.capacity) (hbits : a'.checkbits = update a.checkbits i s.bit)
    (hdata : ∀ j, j ≠ i → a'.data j = a.data j)
    (hstands : ∀ e, s.stands = some e → a'.data i = some e) : Fields a' (update st i s) := by
  refine ⟨fun j => ?_, fun j => ?_, ?_, ?_, fun j => ?_, fun j e => ?_⟩
  · have := h.index j
    grind
  · have := h.free j
    grind
  · rw [hfree]
    exact h.nodup
  · rw [hindex, hcap]
    exact h.capacity
  · have := h.bits j
    rw [hbits, update_apply]
    grind
  · have := h.data j e
    grind

/-- A field from the free stack. -/
theorem Fields.pop {rest : List ℕ} (h : Fields a st) (hf : a.freestack = i :: rest) (t : τ)
    (elem : Option ℕ) :
    st i = .free ∧ Fields { a with freestack := rest } (update st i (.reserved t elem false)) := by
  have hnodup := h.nodup
  rw [hf] at hnodup
  have hfree : st i = .free := (h.free i).mp (hf ▸ List.mem_cons_self)
  refine ⟨hfree, fun j => ?_, fun j => ?_, (List.nodup_cons.mp hnodup).2, h.capacity, fun j => ?_,
    fun j e => ?_⟩
  · have := h.index j
    grind
  · have := h.free j
    have := (List.nodup_cons.mp hnodup).1
    grind
  · have := h.bits j
    grind
  · have := h.data j e
    grind

/-- A field that has never been used. -/
theorem Fields.bump (h : Fields a st) (hcap : a.index < a.capacity) (t : τ) (elem : Option ℕ) :
    st a.bump.1 = .unused ∧ Fields a.bump.2 (update st a.bump.1 (.reserved t elem false)) := by
  have hunused : st a.index = .unused := (h.index a.index).mpr le_rfl
  refine ⟨hunused, fun j => ?_, fun j => ?_, h.nodup, hcap, fun j => ?_, fun j e => ?_⟩
  · have := h.index j
    simp only [ManagedArray.bump]
    grind
  · have := h.free j
    simp only [ManagedArray.bump]
    grind
  · have := h.bits j
    simp only [ManagedArray.bump]
    grind
  · have := h.data j e
    simp only [ManagedArray.bump]
    grind

/-- The array at its new place has the same elements. -/
theorem Fields.grow (h : Fields a st) (hfull : a.capacity ≤ a.index) :
    Fields a.grow st ∧ a.grow.index < a.grow.capacity := by
  have hcap := h.capacity
  have hlt : a.grow.index < a.grow.capacity := by
    simp only [ManagedArray.grow]
    split <;> omega
  refine ⟨{ h with capacity := hlt.le, data := fun j e hj => ?_ }, hlt⟩
  have hused : ¬a.index ≤ j := fun hle => by simp [(h.index j).mpr hle, Status.stands] at hj
  simp only [ManagedArray.grow]
  rw [if_pos (by omega)]
  exact h.data j e hj

/-- **A field that is reserved** was free or new; the array keeps its place unless it has to
grow. -/
theorem Fields.reserve (h : Fields a st) (t : τ) (elem : Option ℕ) :
    (st a.reserve.1 = .free ∨ st a.reserve.1 = .unused) ∧
      (a.grows = false → a.reserve.2.gen = a.gen) ∧
      Fields a.reserve.2 (update st a.reserve.1 (.reserved t elem false)) := by
  rw [ManagedArray.reserve]
  split
  · have hf := ‹a.freestack = _ :: _›
    obtain ⟨hfree, hfields⟩ := h.pop hf t elem
    exact ⟨.inl hfree, fun _ => rfl, hfields⟩
  · have hf := ‹a.freestack = []›
    split
    · obtain ⟨hunused, hfields⟩ := h.bump ‹_› t elem
      exact ⟨.inr hunused, fun _ => rfl, hfields⟩
    · have hfull : a.capacity ≤ a.index := Nat.le_of_not_lt ‹_›
      obtain ⟨hgrow, hcap⟩ := h.grow hfull
      obtain ⟨hunused, hfields⟩ := hgrow.bump hcap t elem
      exact ⟨.inr hunused, fun hg => by simp [ManagedArray.grows, hf, hfull] at hg, hfields⟩

/-- A field goes back to the free stack. -/
theorem Fields.internalRemove (h : Fields a st) (hi : st i ≠ .unused ∧ st i ≠ .free)
    (hbit : (st i).bit = false) : Fields (a.internalRemove i) (update st i .free) := by
  have hnot : i ∉ a.freestack := fun hmem => hi.2 ((h.free i).mp hmem)
  refine ⟨fun j => ?_, fun j => ?_, List.nodup_cons.mpr ⟨hnot, h.nodup⟩, h.capacity, fun j => ?_,
    fun j e => ?_⟩
  · have := h.index j
    simp only [ManagedArray.internalRemove, ManagedArray.setData]
    grind
  · have := h.free j
    simp only [ManagedArray.internalRemove, List.mem_cons]
    grind
  · have := h.bits j
    simp only [ManagedArray.internalRemove, ManagedArray.setData]
    grind
  · have := h.data j e
    simp only [ManagedArray.internalRemove, ManagedArray.setData, update_apply]
    grind

/-- A field in use is in the array. -/
theorem Fields.lt_index (h : Fields a st) (hi : st i ≠ .unused) : i < a.index :=
  Nat.lt_of_not_le fun hle => hi ((h.index i).mpr hle)

/-- An element that is found from now on, and that nobody uses yet. -/
theorem Uses.add (h : Uses count users owners st) (hi : (st i).found = none)
    (ho : (st i).owner = none) (hfresh : ∀ j, (st j).found ≠ some e) :
    Uses count users owners (update st i (.live e)) := by
  refine ⟨fun t j e' => ?_, h.nodup, fun t j => ?_, fun j e' => ?_, fun e' => ?_⟩
  · have := h.owned t j e'
    grind
  · have := h.live t j
    grind
  · have hnone : users.filter (·.2 = i) = [] := by
      refine List.filter_eq_nil_iff.mpr fun u hu hui => ?_
      exact h.live u.1 u.2 hu (of_decide_eq_true hui ▸ hi)
    have := h.counted j e'
    have := h.zero e hfresh
    grind
  · intro hnone
    refine h.zero e' fun j => ?_
    have := hnone j
    grind

theorem Uses.access (h : Uses count users owners st)
    (hinj : ∀ i j e, st i = .live e → st j = .live e → i = j) (hi : st i = .live e) :
    Uses (update count e (count e + 1)) ((t, i) :: users) owners st := by
  refine ⟨h.owned, h.nodup, fun u j hu => ?_, fun j e' hj => ?_, fun e' hnone => ?_⟩
  · obtain hu | hu := List.mem_cons.mp hu
    · cases hu
      simp [hi, Status.found]
    · exact h.live u j hu
  · have hcounted := h.counted j e' hj
    rw [Status.found_eq_some] at hj
    have := hinj i j e
    simp only [List.filter_cons]
    grind
  · have hne : e' ≠ e := by
      rintro rfl
      exact hnone i (by rw [hi]; rfl)
    rw [update_of_ne hne]
    exact h.zero e' hnone

/-- An element that nobody uses is not found any more. -/
theorem Uses.retire (h : Uses count users owners st) (hi : st i = .live e) (hzero : count e = 0)
    (hf : s.found = none) (ho : s.owner = none) : Uses count users owners (update st i s) := by
  have hnone : ∀ u, (u, i) ∉ users := by
    intro u hu
    have hcounted := h.counted i e (by rw [hi]; rfl)
    rw [hzero] at hcounted
    have hmem : (u, i) ∈ users.filter (·.2 = i) := List.mem_filter.mpr ⟨hu, by simp⟩
    rw [List.length_eq_zero_iff.mp hcounted.symm] at hmem
    exact List.not_mem_nil hmem
  refine ⟨fun u j e' => ?_, h.nodup, fun u j hu => ?_, fun j e' => ?_, fun e' he => ?_⟩
  · have := h.owned u j e'
    grind
  · have := h.live u j hu
    have := hnone u
    grind
  · have := h.counted j e'
    grind
  · by_cases hee : e' = e
    · rw [hee, hzero]
    · refine h.zero e' fun j => ?_
      have := he j
      grind

/-- What the others rely on does not change when one thread is chosen. -/
theorem Relies.phase {ph' : τ → Phase} {b' : Blocking ℕ τ} (h : Relies gen b ph st u q)
    (hph : ph' u = ph u) (hq : (b'.info u).queue = (b.info u).queue) :
    Relies gen b' ph' st u q := by
  cases q <;> simpa only [Relies, hph, hq] using h

/-- An element is returned, and is at no index any more. -/
theorem Elements.returned (h : Elements place stored returns st) (hi : (st i).elem = some e)
    (hs : s.elem = none) : Elements place stored ((some e, some e) :: returns) (update st i s) := by
  have hst : ∀ j, (update st i s j).elem = if j = i then none else (st j).elem := by grind
  refine ⟨fun j e' => ?_, fun j k e' => ?_, fun j e' => ?_, fun r hr => ?_, ?_⟩
  · have := h.placed j e'
    grind
  · have := h.inj j k e'
    grind
  · have := h.known j e'
    grind
  · obtain rfl | hr := List.mem_cons.mp hr
    · refine ⟨e, rfl, h.known i e hi, fun j => ?_⟩
      have := h.inj i j e hi
      grind
    · obtain ⟨e', hr, hknown, hnone⟩ := h.gone r hr
      refine ⟨e', hr, hknown, fun j => ?_⟩
      have := hnone j
      grind
  · refine List.nodup_cons.mpr ⟨fun hmem => ?_, h.once⟩
    obtain ⟨r, hr, hre⟩ := List.mem_map.mp hmem
    obtain ⟨e', rfl, -, hnone⟩ := h.gone r hr
    cases hre
    exact hnone i hi

/-- A thread owns an index that nobody owned. -/
theorem Uses.own (h : Uses count users owners st) (hf : (st i).found = none)
    (ho : (st i).owner = none) (t : τ) (e : ℕ) :
    Uses count users ((t, i, e) :: owners) (update st i (.owned t e)) := by
  have hnot : ∀ u e', (u, i, e') ∉ owners := fun u e' hmem => by
    have := (h.owned u i e').mp hmem
    simp [ho] at this
  refine h.chown hf.symm (List.nodup_cons.mpr ⟨hnot t e, h.nodup⟩) fun u j e' => ?_
  have := h.owned u j e'
  have := hnot u e'
  grind

/-! ### `store` -/

variable {elem : Option ℕ}

/-- A new element. -/
theorem Elements.store (h : Elements place stored returns st)
    (hfresh : ∀ e ∈ elem.toList, e ∉ stored) (hs : s.elem = elem) :
    Elements (update place i elem) (elem.toList ++ stored) returns (update st i s) := by
  have hst : ∀ j, (update st i s j).elem = if j = i then elem else (st j).elem := by grind
  refine ⟨fun j e => ?_, fun j k e => ?_, fun j e => ?_, fun r hr => ?_, h.once⟩
  · have := h.placed j e
    rw [hst, update_apply]
    grind
  · have := h.inj j k e
    have := h.known j e
    have := h.known k e
    simp only [hst]
    grind
  · have := h.known j e
    simp only [hst]
    grind
  · obtain ⟨e, hr, he, hnone⟩ := h.gone r hr
    refine ⟨e, hr, List.mem_append_right _ he, fun j => ?_⟩
    have := hnone j
    simp only [hst]
    grind

variable [DecidableEq τ]

/-- A thread that is in no call does not wait, and has no index to itself. -/
theorem Inv.idle (h : Inv m ph st) (hidle : m.pc t = .idle) :
    ph t = .out ∧ ∀ j, (st j).holder ≠ some t := by
  have hrel := h.calls.relies t
  rw [hidle] at hrel
  refine ⟨hrel, fun j hj => ?_⟩
  have hat := h.calls.held j t hj
  rw [hidle] at hat
  exact hat

theorem Inv.store (h : Inv m ph st) (hidle : m.pc t = .idle)
    (hfresh : ∀ e ∈ elem.toList, e ∉ m.stored) (hkept : m.Kept (.store t elem)) :
    ∃ st', Inv (m.store t elem) ph st' := by
  obtain ⟨hold, hgen, hfields⟩ := h.fields.reserve t elem
  have hbit : m.array.checkbits m.array.reserve.1 = false := by
    rw [h.fields.bits]
    obtain hold | hold := hold <;> rw [hold] <;> rfl
  obtain ⟨hout, hheld⟩ := h.idle hidle
  simp only [SynchronizedArray.store, hbit, Bool.false_eq_true, if_false]
  generalize m.array.reserve = r at hold hgen hfields
  have hnone : (st r.1).found = none ∧ (st r.1).owner = none ∧ (st r.1).holder = none := by
    obtain hold | hold := hold <;> rw [hold] <;> exact ⟨rfl, rfl, rfl⟩
  -- the array moves only while all threads are idle
  have hcalls : Calls r.2.gen m.b m.pc ph st := by
    refine ⟨fun u => ?_, h.calls.held⟩
    by_cases hg : m.array.grows = true
    · have hrel := h.calls.relies u
      rw [hkept hg u] at hrel ⊢
      exact hrel
    · rw [hgen (Bool.eq_false_of_not_eq_true hg)]
      exact h.calls.relies u
  have hcalls' : Calls r.2.gen m.b (update m.pc t (.storing r.1 elem .setting)) ph
      (update st r.1 (.reserved t elem false)) := by
    refine hcalls.move (fun u _ hat => ?_) (fun _ _ _ => ?_) (fun j hj => absurd hj (hheld j))
      ⟨hout, update_self _ _ _, trivial⟩ fun u hu => ?_
    · obtain hu | ⟨e, hu, -⟩ := h.calls.holder_of_at hat
      · simp [hnone.2.2] at hu
      · simp [hu, Status.found] at hnone
    · obtain hold | hold := hold <;> rw [hold] <;> rfl
    · exact ⟨(Option.some.inj hu).symm, rfl⟩
  exact ⟨_, h.rep, h.running, hfields, h.elements.store hfresh rfl,
    h.uses.updated hnone.1.symm hnone.2.1.symm, hcalls', h.waiter, h.receipts, h.failed⟩

/-- A `store` has its index reserved. -/
theorem Inv.reserved {p : StorePc} (h : Inv m ph st) (hpc : m.pc t = .storing i elem p) :
    ph t = .out ∧ st i = .reserved t elem p.bit ∧ Current m.array.gen st i elem p ∧
      i < m.array.index ∧ m.array.checkbits i = p.bit := by
  obtain ⟨hout, hi, hcur⟩ : Relies _ _ _ _ _ (.storing i elem p) := hpc ▸ h.calls.relies t
  exact ⟨hout, hi, hcur, h.fields.lt_index (by simp [hi]), by rw [h.fields.bits, hi]; rfl⟩

/-- A `store` goes on without a change of the array. -/
theorem Inv.proceed {p p' : StorePc} (h : Inv m ph st) (hpc : m.pc t = .storing i elem p)
    (hbit : p'.bit = p.bit) (hcur : Current m.array.gen st i elem p') :
    Inv (m.move t (.storing i elem p')) ph st := by
  obtain ⟨hout, hi, -⟩ := h.reserved hpc
  have hst : update st i (st i) = st := update_eq_self ..
  refine { h with calls := hst ▸ h.calls.moveHeld (by rw [hi]; rfl) (fun _ _ _ => rfl) ?_ ?_ }
  · exact hst.symm ▸ ⟨hout, hbit ▸ hi, hcur⟩
  · intro u hu
    rw [hi] at hu
    exact ⟨(Option.some.inj hu).symm, rfl⟩

theorem Inv.load {p : StorePc} (h : Inv m ph st) (hpc : m.pc t = .storing i elem p)
    (hs : m.load t i elem p = some m') : Inv m' ph st := by
  obtain ⟨-, -, hcur, hlt, hbit⟩ := h.reserved hpc
  have hword : ∀ j, j / 64 = i / 64 → m.array.word i (offset j) = (st j).bit := fun j hj =>
    (ManagedArray.word_apply hj).trans (h.fields.bits j)
  cases p with
  | setting =>
    have hclear : m.array.clear i = true := by simp [ManagedArray.clear, hlt, hbit, StorePc.bit]
    rw [SynchronizedArray.load, if_pos hclear] at hs
    cases hs
    exact h.proceed hpc rfl ⟨rfl, hword⟩
  | writing =>
    cases hs
    exact h.proceed hpc rfl rfl
  | clearing =>
    have hvalid : m.array.valid i = true := by simp [ManagedArray.valid, hlt, hbit, StorePc.bit]
    rw [SynchronizedArray.load, if_pos hvalid] at hs
    cases hs
    exact h.proceed hpc rfl ⟨hcur, rfl, hword⟩
  | marking | placing | wiping => exact absurd hs (by simp [SynchronizedArray.load])

/-- The word of a `store` is written back with its bit changed. -/
theorem Inv.writeWord {word : Fin 64 → Bool} (h : Inv m ph st)
    (hw : ∀ j, j / 64 = i / 64 → word (offset j) = (st j).bit) (v : Bool) :
    m.writeAt m.array.gen (m.array.setWord i (update word (offset i) v)) =
      { m with array := m.array.setBit i v } := by
  rw [writeAt, if_pos rfl, ManagedArray.setWord_update fun j hj => ?_]
  rw [hw j hj, h.fields.bits]

/-- The check bit of a reserved index is written. -/
theorem Inv.mark {p : StorePc} (h : Inv m ph st) (hpc : m.pc t = .storing i elem p)
    (hword : ∀ u, u ≠ t → (m.pc u).word ≠ some (i / 64)) (hnew : s ≠ .unused ∧ s ≠ .free)
    (helem : s.elem = elem) (hf : s.found = none) (ho : s.owner = none) (hstands : s.stands = none)
    (hrel : Relies m.array.gen m.b ph (update st i s) t q)
    (hs : ∀ u, s.holder = some u → u = t ∧ q.at i) :
    Inv { m.move t q with array := m.array.setBit i s.bit } ph (update st i s) := by
  obtain ⟨-, hi, -⟩ := h.reserved hpc
  refine ⟨h.rep, h.running, ?_, h.elements.updated (by rw [hi, helem]; rfl),
    h.uses.updated (by rw [hi, hf]; rfl) (by rw [hi, ho]; rfl), ?_, h.waiter, h.receipts, h.failed⟩
  · exact h.fields.updated (by simp [hi]) hnew rfl rfl rfl rfl (fun _ _ => rfl) (by simp [hstands])
  · exact h.calls.moveHeld (by rw [hi]; rfl) (fun u hu hw => absurd hw (hword u hu)) hrel hs

/-- The pointer is written. -/
theorem Inv.setPointer {p : StorePc} (h : Inv m ph st) (hpc : m.pc t = .storing i elem p)
    (hp : p.bit = true) : ∃ st', Inv { m.move t
      (if elem = none then .storing i elem .clearing else .idle) with
      array := m.array.setData i elem } ph st' := by
  obtain ⟨hout, hi, -, -, hbit⟩ := h.reserved hpc
  rw [hp] at hi hbit
  have hbits : m.array.checkbits = update m.array.checkbits i true := by
    rw [← hbit, update_eq_self]
  have hdata : ∀ j, j ≠ i → (m.array.setData i elem).data j = m.array.data j := fun j hj =>
    update_of_ne hj _ _
  cases elem with
  | none =>
    refine ⟨update st i (.reserved t none true), h.rep, h.running, ?_,
      h.elements.updated (by rw [hi]), h.uses.updated (by rw [hi]) (by rw [hi]), ?_, h.waiter,
      h.receipts, h.failed⟩
    · exact h.fields.updated (by simp [hi]) (by simp) rfl rfl rfl hbits hdata
        (by simp [Status.stands])
    · exact h.calls.moveHeld (by rw [hi]; rfl) (fun _ _ _ => by rw [hi])
        ⟨hout, update_self _ _ _, rfl⟩ fun u hu => ⟨(Option.some.inj hu).symm, rfl⟩
  | some e =>
    have hfresh : ∀ j, (st j).found ≠ some e := by
      intro j hj
      rw [Status.found_eq_some] at hj
      obtain rfl := h.elements.inj i j e (by rw [hi]; rfl) (by rw [hj]; rfl)
      simp [hi] at hj
    refine ⟨update st i (.live e), h.rep, h.running, ?_, h.elements.updated (by rw [hi]; rfl),
      h.uses.add (by rw [hi]; rfl) (by rw [hi]; rfl) hfresh, ?_, h.waiter, h.receipts, h.failed⟩
    · exact h.fields.updated (by simp [hi]) (by simp) rfl rfl rfl hbits hdata fun e' he =>
        (update_self _ _ _).trans he
    · exact h.calls.moveHeld (by rw [hi]; rfl) (fun _ _ _ => by rw [hi]; rfl) hout fun u hu => by
        simp [Status.holder] at hu

theorem Inv.write {p : StorePc} (h : Inv m ph st) (hpc : m.pc t = .storing i elem p)
    (hkept : m.Kept (.write t)) (hs : m.write t i elem p = some m') : ∃ st', Inv m' ph st' := by
  obtain ⟨hout, hi, hcur, -⟩ := h.reserved hpc
  have hword : p.marks = true → ∀ u, u ≠ t → (m.pc u).word ≠ some (i / 64) := fun hp =>
    hkept _ (by simp [hpc, ArrayPc.marks, hp])
  cases p with
  | marking g word =>
    obtain ⟨rfl, hw⟩ := hcur
    rw [SynchronizedArray.write, h.writeWord hw] at hs
    cases hs
    exact ⟨_, h.mark (s := .reserved t elem true) hpc (hword rfl) (by simp) rfl rfl rfl rfl
      ⟨hout, update_self _ _ _, trivial⟩ fun u hu => ⟨(Option.some.inj hu).symm, rfl⟩⟩
  | placing g =>
    obtain rfl : g = m.array.gen := hcur
    rw [SynchronizedArray.write, writeAt, if_pos rfl] at hs
    cases hs
    exact h.setPointer hpc rfl
  | wiping g word =>
    obtain ⟨rfl, rfl, hw⟩ := hcur
    rw [SynchronizedArray.write, h.writeWord hw] at hs
    cases hs
    exact ⟨_, h.mark (s := .lost) hpc (hword rfl) (by simp) rfl rfl rfl rfl hout
      (by simp [Status.holder])⟩
  | setting | writing | clearing => exact absurd hs (by simp [SynchronizedArray.write])

/-! ### `access` and `done` -/

/-- A valid index is live, once its `store` has set the pointer. -/
theorem Inv.live_of_valid (h : Inv m ph st) (hs : m.Settled i) (hv : m.array.valid i = true) :
    ∃ e, st i = .live e ∧ m.array.data i = some e := by
  have hbit : (st i).bit = true := by
    rw [← h.fields.bits]
    exact (Bool.and_eq_true_iff.mp hv).2
  cases hi : st i with
  | live e => exact ⟨e, rfl, h.fields.data i e (by rw [hi]; rfl)⟩
  | reserved u elem bit =>
    -- the thread `u` is in a `store` that has set the bit
    rw [hi] at hbit
    obtain rfl : bit = true := hbit
    have hat := h.calls.held i u (by rw [hi]; rfl)
    have hrel := h.calls.relies u
    have hsets := hs u
    cases hpc : m.pc u <;> simp_all [ArrayPc.at, Relies, ArrayPc.sets]
  | unused | free | leaving | owned | lost =>
    rw [hi] at hbit
    cases hbit

theorem Inv.find_live (h : Inv m ph st) (hi : st i = .live e) :
    m.array.valid i = true ∧ m.array.data i = some e ∧ m.find i = some e := by
  have hlt := h.fields.lt_index (i := i) (by simp [hi])
  have hbit : m.array.checkbits i = true := by rw [h.fields.bits, hi]; rfl
  have hvalid : m.array.valid i = true := by simp [ManagedArray.valid, hlt, hbit]
  have hdata := h.fields.data i e (by rw [hi]; rfl)
  exact ⟨hvalid, hdata, by rw [find, if_pos hvalid, hdata]⟩

/-- The elements that are live are at one index each. -/
theorem Inv.live_inj (h : Inv m ph st) (i j e : ℕ) (hi : st i = .live e) (hj : st j = .live e) :
    i = j :=
  h.elements.inj i j e (by rw [hi]; rfl) (by rw [hj]; rfl)

theorem Inv.access (h : Inv m ph st) (hkept : m.Kept (.access t i)) : Inv (m.access t i) ph st := by
  rw [SynchronizedArray.access]
  by_cases hv : m.array.valid i = true
  · obtain ⟨e, hi, hdata⟩ := h.live_of_valid hkept.1 hv
    have hfind := (h.find_live hi).2.2
    rw [if_neg (by simp [hdata])]
    split
    · exact h
    · have hacc := ‹m.accessed i = some _›
      simp only [accessed, hfind, Option.filter_some, Option.ite_none_right_eq_some] at hacc
      obtain ⟨-, hacc⟩ := hacc
      cases hacc
      have hlt : m.count e + 1 < wordSize := hkept.2 e (by simp [hfind])
      rw [wadd_of_lt hlt]
      exact { h with uses := h.uses.access h.live_inj hi }
  · have hnone : m.accessed i = none := by simp [accessed, find, hv]
    rw [if_neg (fun hand => hv hand.1), hnone]
    exact h

theorem Uses.done (h : Uses count users owners st)
    (hinj : ∀ i j e, st i = .live e → st j = .live e → i = j) (hi : st i = .live e)
    (hu : (t, i) ∈ users) :
    0 < count e ∧ Uses (update count e (count e - 1)) (users.erase (t, i)) owners st := by
  have hlen : ∀ j, ((users.erase (t, i)).filter (·.2 = j)).length =
      (users.filter (·.2 = j)).length - if i = j then 1 else 0 := by
    intro j
    rw [← List.erase_filter]
    split
    · exact List.length_erase_of_mem (List.mem_filter.mpr ⟨hu, by simpa⟩)
    · rw [List.erase_of_not_mem (by simpa [List.mem_filter] using fun _ => ‹¬i = j›)]
      rfl
  have hpos : 0 < count e := by
    rw [h.counted i e (by rw [hi]; rfl)]
    exact List.length_pos_of_mem (List.mem_filter.mpr ⟨hu, by simp⟩)
  refine ⟨hpos, h.owned, h.nodup, fun u j hu => h.live u j (List.mem_of_mem_erase hu),
    fun j e' hj => ?_, fun e' hnone => ?_⟩
  · have hcounted := h.counted j e' hj
    rw [Status.found_eq_some] at hj
    have := hinj i j e
    rw [hlen]
    grind
  · have hne : e' ≠ e := by
      rintro rfl
      exact hnone i (by rw [hi]; rfl)
    rw [update_of_ne hne]
    exact h.zero e' hnone

/-- A thread waits, has been chosen, or does not wait. -/
theorem Inv.phase (h : Inv m ph st) (t : τ) :
    ph t = .out ∨ ph t = .blocked ∨ (ph t).granted = true := by
  have hrel := h.calls.relies t
  generalize m.pc t = q at hrel
  cases q with
  | idle => exact .inl hrel
  | waiting i g e => exact .inr (hrel.2.2.imp And.left And.left)
  | storing | returning => exact .inl hrel.1

/-- The `Condition` of an element has the threads that are `Blocked` on it. -/
theorem Inv.mem_queue (h : Inv m ph st) :
    t ∈ m.b.queue e ↔ ph t = .blocked ∧ (m.b.info t).queue = some e := by
  rw [(h.rep.at_ t).linked e]
  refine and_congr_left fun _ => ?_
  obtain hp | hp | hp := h.phase t
  · simp [hp, Phase.linked]
  · simp [hp, Phase.linked]
  · cases hph : ph t with
    | claimed w | ready w => cases w <;> simp_all [Phase.linked, Phase.granted]
    | out | blocked | gone => simp [hph, Phase.granted] at hp

/-- A thread that is `Blocked` on an element waits at the index of the element, which is live. -/
theorem Inv.blocked (h : Inv m ph st) (hb : ph t = .blocked) (hq : (m.b.info t).queue = some e) :
    ∃ i, m.pc t = .waiting i m.array.gen e ∧ st i = .live e := by
  have hrel := h.calls.relies t
  generalize m.pc t = q at hrel ⊢
  cases q with
  | waiting i g e' =>
    obtain ⟨rfl, hq', ⟨-, hi⟩ | ⟨hg, -⟩⟩ := hrel
    · obtain rfl := Option.some.inj (hq'.symm.trans hq)
      exact ⟨i, rfl, hi⟩
    · simp [hb, Phase.granted] at hg
  | idle => exact absurd (hrel.symm.trans hb) (by decide)
  | storing | returning => exact absurd (hrel.1.symm.trans hb) (by decide)

/-- **The last `done`** invalidates the index and chooses the `remove` that waits. -/
theorem Inv.signal {v : τ} (h : Inv m ph st) (hi : st i = .live e) (hzero : m.count e = 0)
    (hword : m.WordFree i) (hf : m.b.firstBlocked e = some v) :
    Inv { m with array := m.array.setBit i false, b := m.b.resumeThread e v }
      (update ph v (.claimed .resume .cancelTimeout)) (update st i (.leaving v e)) := by
  obtain ⟨hv, hmem⟩ := h.rep.firstBlocked hf
  have hq := (h.mem_queue.mp hmem).2
  obtain ⟨j, hpc, hj⟩ := h.blocked hv hq
  obtain rfl := h.live_inj i j e hi hj
  have hinfo : (m.b.resumeThread e v).info = m.b.info := rfl
  have hothers : ∀ u, u ≠ v → ¬(m.pc u).at i := by
    intro u hu hat
    obtain hu' | ⟨e', hlive, hb, hq'⟩ := h.calls.holder_of_at hat
    · simp [hi, Status.holder] at hu'
    · obtain rfl : e = e' := Status.live.inj (hi.symm.trans hlive)
      exact hu (h.waiter u v e hb hq' hv hq)
  have hph : ∀ u, u ≠ v → update ph v (.claimed .resume .cancelTimeout) u = ph u := fun u hu =>
    update_of_ne hu _ _
  refine ⟨h.rep.resumeThread hf, fun u => ?_, ?_, h.elements.updated (by rw [hi]; rfl),
    h.uses.retire hi hzero rfl rfl, ⟨fun u => ?_, fun j u hju => ?_⟩,
      fun u w e' hu hqu hw hqw => ?_, h.receipts, h.failed⟩
  · show update m.b.state v .running u = .running ∨ update m.b.state v .running u = .blocked
    have := h.running u
    grind
  · exact h.fields.updated (by simp [hi]) (by simp) rfl rfl rfl rfl (fun _ _ => rfl) fun e' he =>
      h.fields.data i e' (by rw [hi]; exact he)
  · by_cases hu : u = v
    · subst hu
      rw [hpc]
      exact ⟨rfl, hq, .inr ⟨by rw [update_self]; rfl, update_self _ _ _⟩⟩
    · have hrel := (h.calls.relies u).updated (s := .leaving v e) (hothers u hu)
        fun hw => absurd hw (hword u)
      exact hrel.phase (hph u hu) rfl
  · by_cases hji : j = i
    · subst hji
      rw [update_self] at hju
      obtain rfl : v = u := Option.some.inj hju
      rw [hpc]
      rfl
    · rw [update_of_ne hji] at hju
      exact h.calls.held j u hju
  · have hblocked : ∀ u, update ph v (.claimed .resume .cancelTimeout) u = .blocked →
        ph u = .blocked := by
      intro u hu
      by_cases huv : u = v
      · rw [huv]
        exact hv
      · rwa [hph u huv] at hu
    exact h.waiter u w e' (hblocked u hu) hqu (hblocked w hw) hqw

theorem Inv.done (h : Inv m ph st) (hu : (t, i) ∈ m.users) (hkept : m.Kept (.done t i)) :
    ∃ ph' st', Inv (m.done t i) ph' st' := by
  obtain ⟨e, hi⟩ := Option.ne_none_iff_exists'.mp (h.uses.live t i hu)
  rw [Status.found_eq_some] at hi
  obtain ⟨hpos, huses⟩ := h.uses.done h.live_inj hi hu
  have hfind := (h.find_live hi).2.2
  rw [SynchronizedArray.done, hfind]
  simp only [Nat.ne_of_gt hpos, if_false]
  have hdone : Inv { m with
      count := update m.count e (m.count e - 1), users := m.users.erase (t, i) } ph st :=
    { h with uses := huses }
  rw [doneWith]
  split
  · obtain ⟨hzero, hqueue⟩ := ‹_ ∧ _›
    have hone : m.count e = 1 := by
      simp only [update_self] at hzero
      omega
    have hword : m.WordFree i := hkept e (by simp [hfind]) hone hqueue
    obtain ⟨v, hv⟩ := List.exists_mem_of_ne_nil _ hqueue
    rw [Blocking.resume]
    cases hf : m.b.firstBlocked e with
    | none => exact absurd (h.mem_queue.mp hv).1 (h.rep.not_blocked hf (h.mem_queue.mp hv).2)
    | some w => exact ⟨_, _, hdone.signal hi hzero hword hf⟩
  · exact ⟨ph, st, hdone⟩

/-! ### `remove` -/

/-- A `remove` waits for the users of the element. -/
theorem Inv.wait (h : Inv m ph st) (hidle : m.pc t = .idle) (hi : st i = .live e)
    (hempty : m.b.queue e = []) : (m.b.block t e limit).1 = true ∧
      Inv { m.move t (.waiting i m.array.gen e) with b := (m.b.block t e limit).2 }
        (update ph t .blocked) st := by
  obtain ⟨hout, hheld⟩ := h.idle hidle
  have hrun : m.b.state t = .running := by
    refine (h.running t).resolve_right fun hb => ?_
    have := (h.rep.at_ t).blocked.mp hb
    simp [hout] at this
  obtain ⟨hwait, hrep⟩ | ⟨hwait, -⟩ := h.rep.block hout e limit
  · have hstate : (m.b.block t e limit).2.state = update m.b.state t .blocked := by
      simp [Blocking.block, waitFor, Blocking.suspend, hrun]
    have hqueue := block_queue hwait
    refine ⟨hwait, hrep, fun u => ?_, h.fields, h.elements, h.uses, ⟨fun u => ?_, fun j u hj => ?_⟩,
      fun u w e' hu hqu hw hqw => ?_, h.receipts, h.failed⟩
    · simp only [hstate]
      have := h.running u
      grind
    · simp only [move]
      by_cases hu : u = t
      · subst hu
        rw [update_self]
        exact ⟨rfl, by rw [hqueue, if_pos rfl], .inl ⟨update_self _ _ _, hi⟩⟩
      · rw [update_of_ne hu]
        exact (h.calls.relies u).phase (update_of_ne hu _ _) (by rw [hqueue, if_neg hu])
    · have hu : u ≠ t := fun hu => hheld j (hu ▸ hj)
      simpa only [move, update_of_ne hu] using h.calls.held j u hj
    · -- nobody else waits for the element
      have hnot : ∀ u, ph u = .blocked → (m.b.info u).queue ≠ some e := fun u hb hq => by
        have := h.mem_queue.mpr ⟨hb, hq⟩
        simp [hempty] at this
      have := h.waiter u w e'
      have := hnot u
      have := hnot w
      simp only [hqueue] at hqu hqw
      grind
  · simp [Blocking.block, waitFor, hrun] at hwait

/-- A `remove` finds an element that nobody uses. -/
theorem Inv.removeNow (h : Inv m ph st) (hidle : m.pc t = .idle) (hi : st i = .live e)
    (hzero : m.count e = 0) (hempty : m.b.queue e = []) (hword : m.WordFree i) :
    Inv { m.move t (.returning i m.array.gen e) with array := m.array.setBit i false } ph
      (update st i (.leaving t e)) := by
  obtain ⟨hout, hheld⟩ := h.idle hidle
  refine { h with
    fields := ?_
    elements := h.elements.updated (by rw [hi]; rfl)
    uses := h.uses.retire hi hzero rfl rfl
    calls := ?_ }
  · exact h.fields.updated (by simp [hi]) (by simp) rfl rfl rfl rfl (fun _ _ => rfl) fun e' he =>
      h.fields.data i e' (by rw [hi]; exact he)
  · refine h.calls.move (fun u _ hat => ?_) (fun u _ hw => absurd hw (hword u))
      (fun j hj => absurd hj (hheld j)) ⟨hout, rfl, update_self _ _ _⟩
      fun u hu => ⟨(Option.some.inj hu).symm, rfl⟩
    obtain hu' | ⟨e', hlive, hb, hq⟩ := h.calls.holder_of_at hat
    · simp [hi, Status.holder] at hu'
    · obtain rfl : e = e' := Status.live.inj (hi.symm.trans hlive)
      have := h.mem_queue.mpr ⟨hb, hq⟩
      simp [hempty] at this

theorem Inv.remove (h : Inv m ph st) (hidle : m.pc t = .idle) (hkept : m.Kept (.remove t i)) :
    ∃ ph' st', Inv (m.remove t i) ph' st' := by
  rw [SynchronizedArray.remove]
  split
  · obtain ⟨e, hi, hdata⟩ := h.live_of_valid hkept.1 ‹_›
    obtain ⟨hempty, hword⟩ := hkept.2 e (by simp [(h.find_live hi).2.2])
    rw [hdata]
    simp only
    split
    · obtain ⟨hwait, hinv⟩ := h.wait hidle hi hempty
      rw [hwait]
      exact ⟨_, _, hinv⟩
    · have hzero : m.count e = 0 := Nat.eq_zero_of_not_pos ‹_›
      exact ⟨_, _, h.removeNow hidle hi hzero hempty (hword hzero)⟩
  · exact ⟨ph, st, h⟩

theorem Inv.waited {g : ℕ} (h : Inv m ph st) (hpc : m.pc t = .waiting i g e)
    (hready : m.b.pc t = .ready) :
    Inv { m.move t (.returning i g e) with b := m.b.dispatch t } (update ph t .out) st := by
  obtain ⟨w, hw⟩ := h.rep.ready hready
  obtain ⟨rfl, hq, ⟨hb, -⟩ | ⟨-, hi⟩⟩ : Relies _ _ _ _ _ (.waiting i g e) := hpc ▸ h.calls.relies t
  · simp [hw] at hb
  have hcancel : m.b.state t ≠ .cancelled := fun hs => by
    obtain hr | hr := h.running t <;> rw [hs] at hr <;> simp at hr
  have hstate : (m.b.dispatch t).state = m.b.state := by
    rw [Blocking.dispatch, if_neg hcancel]
  refine { h with
    rep := h.rep.returned hw hcancel
    running := by simpa only [hstate] using h.running
    calls := ⟨fun u => ?_, fun j u hj => ?_⟩
    waiter := fun u v e' hu hqu hv hqv => ?_ }
  · simp only [move]
    by_cases hu : u = t
    · subst hu
      rw [update_self]
      exact ⟨update_self _ _ _, rfl, hi⟩
    · rw [update_of_ne hu]
      exact (h.calls.relies u).phase (update_of_ne hu _ _) (by rw [dispatch_info])
  · have hat := h.calls.held j u hj
    simp only [move]
    by_cases hu : u = t
    · subst hu
      rw [hpc] at hat
      rw [update_self]
      exact hat
    · rwa [update_of_ne hu]
  · have := h.waiter u v e'
    simp only [dispatch_info] at hqu hqv
    grind

/-- The owner of an index gives it up. -/
theorem Uses.release (h : Uses count users owners st) (hi : st i = .owned t e) :
    Uses count users (owners.erase (t, i, e)) (update st i .free) := by
  refine h.chown (by rw [hi]; rfl) (h.nodup.erase _) fun u j e' => ?_
  have := h.owned u j e'
  rw [h.nodup.mem_erase_iff]
  grind

/-- **A `remove` returns** the element that was stored, and nobody has returned it before. -/
theorem Inv.returned {g : ℕ} (h : Inv m ph st) (hpc : m.pc t = .returning i g e) :
    Inv (m.returned t i g) ph (update st i (.owned t e)) := by
  obtain ⟨hout, rfl, hi⟩ : Relies _ _ _ _ _ (.returning i g e) := hpc ▸ h.calls.relies t
  have hread : m.read i m.array.gen = some e := by
    rw [read, if_pos rfl]
    exact h.fields.data i e (by rw [hi]; rfl)
  have hplace : m.place i = some e := h.elements.placed i e (by rw [hi]; rfl)
  have hbit : m.array.checkbits = update m.array.checkbits i false := by
    have hbit : m.array.checkbits i = false := by rw [h.fields.bits, hi]; rfl
    rw [← hbit, update_eq_self]
  rw [SynchronizedArray.returned, hread, hplace]
  refine ⟨h.rep, h.running, ?_, h.elements.returned (by rw [hi]; rfl) rfl,
    h.uses.own (by rw [hi]; rfl) (by rw [hi]; rfl) t e, ?_, h.waiter, fun o ho => ?_, h.failed⟩
  · exact h.fields.updated (by simp [hi]) (by simp) rfl rfl rfl hbit (fun _ _ => rfl)
      (by simp [Status.stands])
  · exact h.calls.moveHeld (by rw [hi]; rfl) (fun _ _ _ => by rw [hi]; rfl) hout fun u hu => by
      simp [Status.holder] at hu
  · obtain rfl | ho := List.mem_cons.mp ho
    · exact List.mem_cons_self
    · exact List.mem_cons_of_mem _ (h.receipts o ho)

/-- The index is free again. -/
theorem Inv.release (h : Inv m ph st) (ho : (t, i, e) ∈ m.owners) :
    m.array.clear i = true ∧
      Inv { m with array := m.array.internalRemove i, owners := m.owners.erase (t, i, e) } ph
        (update st i .free) := by
  have hi : st i = .owned t e := by
    have howner := (h.uses.owned t i e).mp ho
    cases hst : st i <;> simp_all [Status.owner]
  have hlt := h.fields.lt_index (i := i) (by simp [hi])
  have hbit : m.array.checkbits i = false := by rw [h.fields.bits, hi]; rfl
  refine ⟨by simp [ManagedArray.clear, hlt, hbit], h.rep, h.running, ?_,
    h.elements.updated (by rw [hi]; rfl), h.uses.release hi, ⟨fun u => ?_, fun j u hj => ?_⟩,
    h.waiter, fun o ho => h.receipts o (List.mem_of_mem_erase ho), h.failed⟩
  · exact h.fields.internalRemove (by simp [hi]) (by rw [hi]; rfl)
  · refine (h.calls.relies u).updated (fun hat => ?_) fun _ => by rw [hi]; rfl
    obtain hu | ⟨e', hlive, -⟩ := h.calls.holder_of_at hat
    · simp [hi, Status.holder] at hu
    · simp [hi] at hlive
  · by_cases hji : j = i
    · subst hji
      rw [update_self] at hj
      simp [Status.holder] at hj
    · rw [update_of_ne hji] at hj
      exact h.calls.held j u hj

theorem Inv.quiet {b : Blocking ℕ τ} {ph' : τ → Phase} (h : Inv m ph st) (hq : Quiet m.b ph b ph')
    (hblocked : ∀ t, ph t = .blocked → ph' t = .blocked)
    (hrun : ∀ t, b.state t = .running ∨ b.state t = .blocked) : Inv { m with b } ph' st where
  rep := hq.rep
  running := hrun
  fields := h.fields
  elements := h.elements
  uses := h.uses
  calls := by
    refine ⟨fun t => ?_, h.calls.held⟩
    have hrel := h.calls.relies t
    generalize m.pc t = q at hrel ⊢
    cases q with
    | waiting i g e =>
      obtain ⟨hg, hqueue, hst⟩ := hrel
      refine ⟨hg, by rw [hq.queue]; exact hqueue, hst.imp ?_ ?_⟩
      · exact fun hst => ⟨hblocked t hst.1, hst.2⟩
      · exact fun hst => ⟨by rw [hq.granted]; exact hst.1, hst.2⟩
    | idle => exact (hq.out t).mpr hrel
    | storing | returning => exact ⟨(hq.out t).mpr hrel.1, hrel.2⟩
  waiter t u e ht hqt hu hqu := by
    rw [hq.queue] at hqt hqu
    exact h.waiter t u e (hq.blocked t ht) hqt (hq.blocked u hu) hqu
  receipts := h.receipts
  failed := h.failed

/-! ## Runs -/

/-- **One step keeps the round of every index.** -/
theorem Inv.step {a : Action τ} (h : ∃ ph st, Inv m ph st) (hg : m.Kept a)
    (hs : m.step a = some m') : ∃ ph st, Inv m' ph st := by
  obtain ⟨ph, st, h⟩ := h
  cases a with
  | store t elem =>
    obtain ⟨⟨hidle, hfresh⟩, rfl⟩ := Option.ite_some_none_eq_some.mp hs
    obtain ⟨st', h'⟩ := h.store hidle hfresh hg
    exact ⟨ph, st', h'⟩
  | load t =>
    rw [SynchronizedArray.step] at hs
    split at hs
    · exact ⟨ph, st, h.load ‹_› hs⟩
    · cases hs
  | write t =>
    rw [SynchronizedArray.step] at hs
    split at hs
    · obtain ⟨st', h'⟩ := h.write ‹_› hg hs
      exact ⟨ph, st', h'⟩
    · cases hs
  | access t i =>
    obtain ⟨-, rfl⟩ := Option.ite_some_none_eq_some.mp hs
    exact ⟨ph, st, h.access hg⟩
  | done t i =>
    obtain ⟨⟨-, hu⟩, rfl⟩ := Option.ite_some_none_eq_some.mp hs
    exact h.done hu hg
  | remove t i =>
    obtain ⟨hidle, rfl⟩ := Option.ite_some_none_eq_some.mp hs
    exact h.remove hidle hg
  | waited t =>
    rw [SynchronizedArray.step] at hs
    split at hs
    · obtain ⟨hready, rfl⟩ := Option.ite_some_none_eq_some.mp hs
      exact ⟨_, st, h.waited ‹_› hready⟩
    · cases hs
  | finish t =>
    rw [SynchronizedArray.step] at hs
    split at hs
    · cases hs
      exact ⟨ph, _, h.returned ‹_›⟩
    · cases hs
  | release t i =>
    rw [SynchronizedArray.step] at hs
    split at hs
    · cases hs
    have hfind := ‹List.find? _ _ = some _›
    obtain ⟨rfl, rfl⟩ : _ = t ∧ _ = i := of_decide_eq_true (List.find?_some hfind :)
    obtain ⟨-, hs⟩ := Option.ite_none_right_eq_some.mp hs
    obtain ⟨hclear, h'⟩ := h.release (List.mem_of_find?_eq_some hfind)
    rw [if_pos hclear] at hs
    exact ⟨ph, _, Option.some.inj hs ▸ h'⟩
  | advance c =>
    obtain ⟨hc, rfl⟩ := Option.ite_some_none_eq_some.mp hs
    refine ⟨_, st, h.quiet (h.rep.advance_quiet hc) (fun t ht => ?_) ?_⟩
    · have hne : t ≠ c.thread := by
        rintro rfl
        simp [(h.rep.at_ c.thread).eq_claimed hc] at ht
      rwa [update_of_ne hne]
    · rw [advance_state]
      exact h.running

/-- **The handle protocol.**  In every run of any number of threads that respects the condition, an
element is returned at most once, and as it was stored; then it has no users, its index is invalid
until the `release`, and no `access` finds it; and the threads on a `Condition` wait for an element
whose index is valid. -/
theorem handles_closed_once {n : ℕ} {as : List (Action τ)}
    (hrun : run step (init n : SynchronizedArray τ) as = some m)
    (hkept : Guarded step Kept (init n : SynchronizedArray τ) as) :
    (m.returns.map Prod.snd).Nodup ∧
      (∀ r ∈ m.returns, ∃ e, r = (some e, some e) ∧ m.count e = 0 ∧
        ∀ t i, m.Kept (.access t i) → m.accessed i ≠ some e) ∧
      (∀ t i e, (t, i, e) ∈ m.owners → m.array.valid i = false ∧ (some e, some e) ∈ m.returns) ∧
      (∀ t e, t ∈ m.b.queue e → ∃ i, m.find i = some e) ∧
      m.failed = false := by
  obtain ⟨ph, st, h⟩ := invariant_of_guarded Inv.step ⟨_, _, inv_init n⟩ hkept hrun
  refine ⟨h.elements.once, fun r hr => ?_, fun t i e ho => ⟨?_, h.receipts _ ho⟩, fun t e ht => ?_,
    h.failed⟩
  · obtain ⟨e, rfl, -, hgone⟩ := h.elements.gone r hr
    have hnot : ∀ i, (st i).found ≠ some e := fun i hi =>
      hgone i (by rw [Status.found_eq_some.mp hi]; rfl)
    refine ⟨e, rfl, h.uses.zero e hnot, fun t i hk hacc => ?_⟩
    have hfind : m.find i = some e := (Option.filter_eq_some_iff.mp hacc).1
    obtain ⟨hvalid, hdata⟩ := Option.ite_none_right_eq_some.mp hfind
    obtain ⟨e', hi, hdata'⟩ := h.live_of_valid hk.1 hvalid
    obtain rfl := Option.some.inj (hdata.symm.trans hdata')
    exact hnot i (by rw [hi]; rfl)
  · have howner := (h.uses.owned t i e).mp ho
    have hbit : (st i).bit = false := by
      cases hst : st i <;> simp_all [Status.owner, Status.bit]
    simp [ManagedArray.valid, h.fields.bits, hbit]
  · obtain ⟨hb, hq⟩ := h.mem_queue.mp ht
    obtain ⟨i, -, hi⟩ := h.blocked hb hq
    exact ⟨i, (h.find_live hi).2.2⟩

/-- The two writes of a `store`. -/
def writes {τ : Type} (t : τ) : List (Action τ) := [.load t, .write t, .load t, .write t]

/-- Thread 1 closes a file while thread 0 reads it, and the index is used again. -/
theorem handles_closed_once_inUse : ∃ m : SynchronizedArray (Fin 2),
    run step (init 1) (.store 0 (some 7) :: writes 0 ++ [.access 0 0, .remove 1 0, .access 0 0,
      .done 0 0, .advance ⟨1, .resume, .cancelTimeout⟩, .advance ⟨1, .resume, .wake⟩, .waited 1,
      .finish 1, .release 1 0, .store 0 (some 8)] ++ writes 0) = some m ∧
      (m.returns = [(some 7, some 7)] ∧ m.find 0 = some 8) ∧ m.failed = false :=
  exists_run_and (by decide +kernel) fun _ hrun _ =>
    (handles_closed_once hrun (guarded_of_decide (by decide +kernel))).2.2.2.2

/-- **Two closers, a closer of a growing array, and a word that is written back.**  Two threads wait
for an element, and the last user wakes one of them; an array that has moved while a thread waited
gives it no element; and a `store` that has read its word before a `remove` brings back the bit of
the index that was removed, so that the element is returned twice. -/
theorem closers_left_behind :
    (∃ m : SynchronizedArray (Fin 3),
      run step (init 1) (.store 0 (some 7) :: writes 0 ++ [.access 0 0, .remove 1 0, .remove 2 0,
        .done 0 0]) = some m ∧
      m.array.valid 0 = false ∧ m.place 0 = some 7 ∧ m.b.queue 7 = [2] ∧ m.b.state 2 = .blocked) ∧
    (∃ m : SynchronizedArray (Fin 3),
      run step (init 1) (.store 0 (some 7) :: writes 0 ++ [.access 0 0, .remove 1 0,
        .store 2 (some 8), .done 0 0, .advance ⟨1, .resume, .cancelTimeout⟩,
        .advance ⟨1, .resume, .wake⟩, .waited 1, .finish 1]) = some m ∧
      m.returns = [(some 7, none)]) ∧
    ∃ m : SynchronizedArray (Fin 3),
      run step (init 2) (.store 0 (some 7) :: writes 0 ++ [.store 1 (some 8), .load 1, .remove 2 0,
        .finish 2, .write 1, .remove 0 0, .finish 0]) = some m ∧
      m.returns = [(some 7, some 7), (some 7, some 7)] :=
  ⟨exists_run (by decide +kernel), exists_run (by decide +kernel), exists_run (by decide +kernel)⟩

end SynchronizedArray

end Kos

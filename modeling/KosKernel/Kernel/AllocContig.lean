import KosKernel.Kernel.FrameRuns

/-!
# Kernel/AllocContig — a contiguous run of frames

`allocContig` of `kernel/FrameManager.cc`.  Two copies of one search loop look for a run of set
bits: in the bitmaps of the partial blocks, one after the other, for less than a block, and in
`largeFrames` otherwise.  When no partial block has the run, a whole block is split.

The search is right: `runSearch_spec` says that it finds a run exactly if there is one.  What is
around it is not.  `findset` reports "none" by the number `limit`, and `limit * dps` is an address
like any other; and the block that is split is not checked against `align`.
-/

namespace Kos

open Std HierarchicalBitmap

namespace FrameManager

/-! ## The code -/

/-- How the search loop is left: with a run, by the `limit` check, or at the end of the bits. -/
inductive Search
  | hit (baseidx idx : ℕ)
  | beyond
  | exhausted
  deriving DecidableEq

/-- The inner `for (;;)`: the next set bit below `n`.  It keeps `found` while consecutive bits are
set. -/
def nextSet (test : ℕ → Bool) (n : ℕ) : ℕ → ℕ → ℕ → Except Fault (Option (ℕ × ℕ))
  | 0, _, _ => .error .diverge
  | fuel + 1, idx, found =>
    let idx := wadd idx 1
    if n ≤ idx then .ok none
    else if test idx then .ok (some (idx, found))
    else nextSet test n fuel idx 0

/-- The outer `for (;;)`.  Both copies of the loop are this one: over the bits `test` of which there
are `n`, where bit `i` stands for `unit` bytes from the address `addr i` on. -/
def runSearch (test : ℕ → Bool) (addr : ℕ → ℕ) (n unit size align limit : ℕ) :
    ℕ → ℕ → ℕ → ℕ → Except Fault Search
  | 0, _, _, _ => .error .diverge
  | fuel + 1, idx, found, baseidx =>
    if found = 0 ∧ wadd (addr idx) size > limit then .ok .beyond else
    let baseidx := if found = 0 then idx else baseidx
    let found := if found = 0 then (if aligned (addr idx) align then unit else 0)
      else wadd found unit
    if found ≥ size then .ok (.hit baseidx idx)
    else
      match nextSet test n (n + 1) idx found with
      | .error e => .error e
      | .ok none => .ok .exhausted
      | .ok (some (idx, found)) =>
        runSearch test addr n unit size align limit fuel idx found baseidx

/-- The address of a frame of a block. -/
def frameAddr (i o : ℕ) : ℕ := (i * dps + o * sps) % wordSize

/-- The address of a block. -/
def blockAddr (i : ℕ) : ℕ := i * dps % wordSize

/-- The search in the bitmap of one partial block. -/
def searchBlock (size align limit i : ℕ) (b : FrameBitmap) : Except Fault Search :=
  runSearch b.test (frameAddr i) pagetableentries sps size align limit (pagetableentries + 1)
    b.findset 0 b.findset

/-- How the loop over `smallFrames` goes on after the search in one block. -/
def afterBlock (i : ℕ) (b : FrameBitmap) (next : Except Fault (Option (ℕ × FrameBitmap × ℕ × ℕ))) :
    Except Fault Search → Except Fault (Option (ℕ × FrameBitmap × ℕ × ℕ))
  | .error e => .error e
  | .ok (.hit baseidx idx) => .ok (some (i, b, baseidx, idx))
  -- `goto use_large_frame`
  | .ok .beyond => .ok none
  -- `goto next_small_set`
  | .ok .exhausted => next

/-- The loop over `smallFrames`: the block with its bitmap, and the first and last bit of the
run. -/
def searchSmall (size align limit : ℕ) :
    List (ℕ × FrameBitmap) → Except Fault (Option (ℕ × FrameBitmap × ℕ × ℕ))
  | [] => .ok none
  | (i, b) :: rest =>
    afterBlock i b (searchSmall size align limit rest) (searchBlock size align limit i b)

variable (fm : FrameManager)

/-- From `use_large_frame` on: split the first free block.  `emplace` keeps an entry that exists. -/
def useLargeFrame (size limit : ℕ) : Except Fault (ℕ × ℕ × FrameManager) :=
  scopedLock fm.lplock <|
    let idx := fm.largeFrames.findset
    if wadd (blockAddr idx) size > limit then .ok (topaddr, size, fm)
    -- `clear` of a bit that `largeFrames` does not have
    else if fm.bitcount ≤ idx then .error .outOfBounds
    else
      let bitmap := (List.range (size / sps)).foldl Bitmap.clear ((fm.small idx).getD Bitmap.filled)
      if bitmap.empty then .error .kassert
      else .ok (blockAddr idx, size, { fm with
        largeFrames := fm.largeFrames.clear idx
        smallFrames := fm.smallFrames.insert idx bitmap })

/-- The branch for less than a block. -/
def contigSmall (size align limit : ℕ) : Except Fault (ℕ × ℕ × FrameManager) :=
  scopedLock fm.splock <|
    match searchSmall size align limit fm.smallFrames.toList with
    | .error e => .error e
    | .ok none => fm.useLargeFrame size limit
    | .ok (some (i, b, baseidx, idx)) =>
      let bitmap := (List.range' baseidx (idx + 1 - baseidx)).foldl Bitmap.clear b
      .ok (frameAddr i baseidx, size, { fm with
        smallFrames := if bitmap.empty then fm.smallFrames.erase i
          else fm.smallFrames.insert i bitmap })

/-- The branch for whole blocks. -/
def contigLarge (size align limit : ℕ) : Except Fault (ℕ × ℕ × FrameManager) :=
  scopedLock fm.lplock <|
    let size := alignUp size dps
    let idx := fm.largeFrames.findset
    match runSearch fm.largeFrames.test blockAddr fm.bitcount dps size align limit (fm.bitcount + 1)
        idx 0 idx with
    | .error e => .error e
    | .ok .beyond => .ok (topaddr, size, fm)
    | .ok .exhausted => .ok (topaddr, size, fm)
    | .ok (.hit baseidx idx) =>
      if fm.bitcount ≤ idx then .error .outOfBounds
      else .ok (blockAddr baseidx, size, { fm with
        largeFrames :=
          (List.range' baseidx (idx + 1 - baseidx)).foldl HierarchicalBitmap.clear fm.largeFrames })

/-- `allocContig`: the address (or `topaddr`), the size after rounding, and the new state. -/
def allocContig (size align limit : ℕ) : Except Fault (ℕ × ℕ × FrameManager) :=
  let size := alignUp size sps
  if size < dps then fm.contigSmall size align limit else fm.contigLarge size align limit

/-! ## The search

`Fits` is what the search looks for.  While it has `m` bits in hand, they are the run from `baseidx`
up to `idx`, and no run it would accept starts before `baseidx`: a run that started inside the bits
in hand would have to go on past the bit that ends them. -/

variable {size : ℕ}

section Search

variable {test : ℕ → Bool} {addr : ℕ → ℕ} {n unit align lim k : ℕ}

/-- A run of `k` set bits from `b` on that is aligned and ends at or below `lim`. -/
structure Fits (test : ℕ → Bool) (addr : ℕ → ℕ) (n unit align lim k b : ℕ) : Prop where
  inside : b + k ≤ n
  set : ∀ j < k, test (b + j) = true
  good : aligned (addr b) align = true
  below : addr b + k * unit ≤ lim

/-- **The inner loop** stops at the next set bit, or there is none; a gap resets `found`. -/
theorem nextSet_spec (hn : n < wordSize) (fuel : ℕ) : ∀ {idx : ℕ} (found : ℕ), idx < n →
    n - idx ≤ fuel →
    (nextSet test n fuel idx found = .ok none ∧ ∀ j, idx < j → j < n → test j = false) ∨
    ∃ idx', nextSet test n fuel idx found = .ok (some (idx', if idx' = idx + 1 then found else 0)) ∧
      idx < idx' ∧ idx' < n ∧ test idx' = true ∧ ∀ j, idx < j → j < idx' → test j = false := by
  induction fuel with
  | zero => omega
  | succ fuel ih =>
    intro idx found hidx hfuel
    rw [nextSet, wadd_of_lt (by omega)]
    by_cases hend : n ≤ idx + 1
    · exact Or.inl ⟨if_pos hend, by omega⟩
    · rw [if_neg hend]
      by_cases ht : test (idx + 1) = true
      · exact Or.inr ⟨idx + 1, by rw [if_pos ht, if_pos rfl], by omega, by omega, ht, by omega⟩
      · rw [if_neg ht]
        have hgap : ∀ j, idx < j → (idx + 1 < j → test j = false) → test j = false := by
          intro j hj hrest
          rcases Nat.lt_or_ge (idx + 1) j with h | h
          · exact hrest h
          · obtain rfl : j = idx + 1 := by omega
            simpa using ht
        obtain ⟨hr, hclear⟩ | ⟨i, hr, h1, h2, h3, h4⟩ :=
          ih 0 (show idx + 1 < n by omega) (by omega)
        · exact Or.inl ⟨hr, fun j h hj => hgap j h fun h' => hclear j h' hj⟩
        · refine Or.inr ⟨i, ?_, by omega, h2, h3, fun j h hj => hgap j h fun h' => h4 j h' hj⟩
          rw [hr, ite_self, if_neg (by omega)]

/-- What the search knows with `m` bits in hand. -/
structure InHand (test : ℕ → Bool) (addr : ℕ → ℕ) (n unit align lim k m baseidx idx : ℕ) :
    Prop where
  short : m < k
  run : baseidx + m = idx
  set : ∀ j < m, test (baseidx + j) = true
  good : 0 < m → aligned (addr baseidx) align = true
  below : 0 < m → addr baseidx + k * unit ≤ lim
  before : ∀ b < baseidx, ¬ Fits test addr n unit align lim k b

variable {m baseidx idx : ℕ}

/-- No run starts at or before a bit, if the bits in hand end there and are too few. -/
theorem InHand.not_fits (h : InHand test addr n unit align lim k m baseidx idx)
    (hend : idx < n → test idx = false) : ∀ b ≤ idx, ¬ Fits test addr n unit align lim k b := by
  intro b hb hf
  have hshort := h.short
  have hrun := h.run
  have hin := hf.inside
  rcases Nat.lt_or_ge b baseidx with hlt | hge
  · exact h.before b hlt hf
  · have := hf.set (idx - b) (by omega)
    rw [Nat.add_sub_cancel' hb, hend (by omega)] at this
    cases this

/-- One more bit in hand: the run is complete, or one longer. -/
theorem InHand.grow (h : InHand test addr n unit align lim k m baseidx idx) (hidx : idx < n)
    (ht : test idx = true) (hgood : aligned (addr baseidx) align = true)
    (hbelow : addr baseidx + k * unit ≤ lim) :
    (k ≤ m + 1 → Fits test addr n unit align lim k baseidx ∧ idx + 1 = baseidx + k) ∧
      (m + 1 < k → InHand test addr n unit align lim k (m + 1) baseidx (idx + 1)) := by
  have hshort := h.short
  have hrun := h.run
  have hset : ∀ j < m + 1, test (baseidx + j) = true := by
    intro j hj
    rcases Nat.lt_succ_iff_lt_or_eq.mp hj with hlt | rfl
    · exact h.set j hlt
    · rw [hrun, ht]
  refine ⟨fun hk => ?_, fun hk => ⟨hk, by omega, hset, fun _ => hgood, fun _ => hbelow, h.before⟩⟩
  obtain rfl : k = m + 1 := by omega
  exact ⟨⟨by omega, hset, hgood, hbelow⟩, by omega⟩

/-- A first bit that is not aligned is passed over. -/
theorem InHand.skip (h : InHand test addr n unit align lim k 0 idx idx)
    (hbad : ¬ aligned (addr idx) align = true) :
    InHand test addr n unit align lim k 0 (idx + 1) (idx + 1) := by
  refine ⟨h.short, rfl, by simp, by simp, by simp, fun b hb hf => ?_⟩
  rcases Nat.lt_succ_iff_lt_or_eq.mp hb with hlt | rfl
  · exact h.before b hlt hf
  · exact hbad hf.good

/-- After a gap the search starts over at the next set bit. -/
theorem InHand.restart {idx' : ℕ} (h : InHand test addr n unit align lim k m baseidx idx)
    (hlt : idx < idx') (hclear : ∀ j, idx ≤ j → j < idx' → j < n → test j = false) :
    InHand test addr n unit align lim k 0 idx' idx' := by
  have hshort := h.short
  refine ⟨by omega, rfl, by simp, by simp, by simp, fun b hb hf => ?_⟩
  have hin := hf.inside
  rcases Nat.lt_or_ge idx b with hgt | hle
  · have := hf.set 0 (by omega)
    rw [Nat.add_zero, hclear b hgt.le hb (by omega)] at this
    cases this
  · exact h.not_fits (hclear idx le_rfl hlt) b hle hf

/-- What the search reports, against what there is. -/
def Search.Right (test : ℕ → Bool) (addr : ℕ → ℕ) (n unit align lim k : ℕ) : Search → Prop
  | .hit b e => Fits test addr n unit align lim k b ∧ e + 1 = b + k
  | .beyond => (∃ b < n, lim < addr b + k * unit) ∧ ∀ b, ¬ Fits test addr n unit align lim k b
  | .exhausted => ∀ b, ¬ Fits test addr n unit align lim k b

/-- **The search finds a run exactly if there is one.** -/
theorem runSearch_spec (hn : n < wordSize) (hunit : 0 < unit)
    (hmono : ∀ b b', b ≤ b' → b' < n → addr b ≤ addr b')
    (hword : ∀ b < n, addr b + k * unit < wordSize) (fuel : ℕ) : ∀ {m baseidx idx : ℕ},
    InHand test addr n unit align lim k m baseidx idx → (m = 0 → baseidx = idx) →
    idx < n → test idx = true → n - idx ≤ fuel → ∀ base, (0 < m → base = baseidx) →
    ∃ r, runSearch test addr n unit (k * unit) align lim fuel idx (m * unit) base = .ok r ∧
      Search.Right test addr n unit align lim k r := by
  induction fuel with
  | zero => omega
  | succ fuel ih =>
    intro m baseidx idx h hzero hidx ht hfuel base hbase
    have hle : ∀ x, k * unit ≤ x * unit ↔ k ≤ x := fun x => Nat.mul_le_mul_right_iff hunit
    -- what follows a bit that does not complete the run
    have hnext : ∀ {m' b' : ℕ} (base' : ℕ), InHand test addr n unit align lim k m' b' (idx + 1) →
        (m' = 0 → b' = idx + 1) → (0 < m' → base' = b') →
        ∃ r, (match nextSet test n (n + 1) idx (m' * unit) with
          | .error e => (.error e : Except Fault Search)
          | .ok none => .ok .exhausted
          | .ok (some (idx, found)) =>
            runSearch test addr n unit (k * unit) align lim fuel idx found base') = .ok r ∧
          Search.Right test addr n unit align lim k r := by
      intro m' b' base' h' hz' hb'
      obtain ⟨hr, hclear⟩ | ⟨i, hr, h1, h2, h3, h4⟩ :=
        nextSet_spec hn (n + 1) (m' * unit) hidx (by omega)
      · rw [hr]
        refine ⟨.exhausted, rfl, fun b hf => ?_⟩
        have hk := h'.short
        have hin := hf.inside
        have hend : InHand test addr n unit align lim k 0 (n + idx + 2) (n + idx + 2) :=
          h'.restart (by omega) fun j hj _ hjn => hclear j (by omega) hjn
        exact hend.before b (by omega) hf
      · rw [hr]
        by_cases hi : i = idx + 1
        · subst hi
          rw [if_pos rfl]
          exact ih h' hz' h2 h3 (by omega) base' hb'
        · rw [if_neg hi]
          have hstart : InHand test addr n unit align lim k 0 i i :=
            h'.restart (by omega) fun j hj hji _ => h4 j (by omega) hji
          simpa using ih hstart (fun _ => rfl) h2 h3 (by omega) base' (by simp)
    -- a bit that belongs to the run
    have hgrow : ∀ {m b : ℕ}, InHand test addr n unit align lim k m b idx →
        aligned (addr b) align = true → addr b + k * unit ≤ lim →
        ∃ r, (if (m + 1) * unit ≥ k * unit then .ok (.hit b idx) else
          match nextSet test n (n + 1) idx ((m + 1) * unit) with
          | .error e => (.error e : Except Fault Search)
          | .ok none => .ok .exhausted
          | .ok (some (idx, found)) =>
            runSearch test addr n unit (k * unit) align lim fuel idx found b) = .ok r ∧
          Search.Right test addr n unit align lim k r := by
      intro m b h hgood hbelow
      obtain ⟨hdone, hmore⟩ := h.grow hidx ht hgood hbelow
      rcases Nat.lt_or_ge (m + 1) k with hk | hk
      · rw [if_neg (by rw [ge_iff_le, hle]; omega)]
        exact hnext b (hmore hk) (by simp) (fun _ => rfl)
      · rw [if_pos ((hle _).mpr hk)]
        exact ⟨_, rfl, hdone hk⟩
    have hadd := wadd_of_lt (hword idx hidx)
    rcases Nat.eq_zero_or_pos m with rfl | hm
    · -- a new base
      obtain rfl := hzero rfl
      simp only [runSearch, hadd, Nat.zero_mul, true_and, if_true]
      by_cases hover : addr baseidx + k * unit > lim
      · rw [if_pos hover]
        refine ⟨.beyond, rfl, ⟨baseidx, hidx, hover⟩, fun b hf => ?_⟩
        rcases Nat.lt_or_ge b baseidx with hlt | hge
        · exact h.before b hlt hf
        · have := hmono baseidx b hge (by have := hf.inside; have := h.short; omega)
          have := hf.below
          omega
      · rw [if_neg hover]
        by_cases hgood : aligned (addr baseidx) align = true
        · rw [if_pos hgood]
          simpa using hgrow h hgood (by omega)
        · rw [if_neg hgood, if_neg (by have := hle 0; have := h.short; omega)]
          simpa using hnext baseidx (h.skip hgood) (fun _ => rfl) (by simp)
    · -- the base stays
      have hfound : m * unit ≠ 0 := (Nat.mul_pos hm hunit).ne'
      have hsucc : wadd (m * unit) unit = (m + 1) * unit := by
        have hmul := Nat.mul_le_mul_right unit (show m + 1 ≤ k from h.short)
        have hlt : (m + 1) * unit < wordSize := by have := hword idx hidx; omega
        rw [Nat.succ_mul] at hlt ⊢
        exact wadd_of_lt hlt
      simp only [runSearch, hfound, false_and, if_false, hsucc]
      obtain rfl := hbase hm
      exact hgrow h (h.good hm) (h.below hm)

/-- Once the first set bit is known the search starts with nothing in hand. -/
theorem inHand_first (hk : 0 < k) (hfirst : ∀ j < idx, test j = false) :
    InHand test addr n unit align lim k 0 idx idx := by
  refine ⟨hk, rfl, by simp, by simp, by simp, fun b hb hf => ?_⟩
  have := hf.set 0 hk
  rw [Nat.add_zero, hfirst b hb] at this
  cases this

/-- **The search with no bit set** starts at `limit`, the number by which `findset` says so, and
wraps around to bit `0` unless `limit` itself passes for a run. -/
theorem runSearch_none (hn : n < wordSize) (hclear : ∀ j < n, test j = false) (fuel base : ℕ)
    (hsize : 0 < size) : runSearch test addr n unit size align lim (fuel + 1) limit 0 base = .ok
      (if wadd (addr limit) size > lim then .beyond
        else if aligned (addr limit) align = true ∧ size ≤ unit then .hit limit limit
        else .exhausted) := by
  have hnext : ∀ found, nextSet test n (n + 1) limit found = .ok none := by
    intro found
    rw [nextSet, show wadd limit 1 = 0 from rfl]
    rcases Nat.eq_zero_or_pos n with rfl | hpos
    · rfl
    · simp only [if_neg (show ¬ n ≤ 0 by omega), hclear 0 hpos, Bool.false_eq_true, if_false]
      rcases nextSet_spec hn n 0 hpos (by omega) with ⟨hr, -⟩ | ⟨i, -, -, hi, ht, -⟩
      · exact hr
      · rw [hclear i hi] at ht
        cases ht
  simp only [runSearch, hnext, true_and, if_true]
  by_cases hover : wadd (addr limit) size > lim
  · simp only [hover, if_true]
  · simp only [hover, if_false]
    by_cases hgood : aligned (addr limit) align = true
    · simp only [hgood, if_true, true_and, ge_iff_le]
      split <;> rfl
    · simp only [hgood, Bool.false_eq_true, if_false, false_and, ge_iff_le]
      rw [if_neg (by omega)]

end Search

/-! ## What the containers lose -/

variable {fm fm' fm₂ : FrameManager}

/-- Clearing a run of bits one by one. -/
theorem test_foldl_clear {N : ℕ} (l : List ℕ) : ∀ (b : Bitmap N) (o : ℕ),
    (l.foldl Bitmap.clear b).test o = true ↔ b.test o = true ∧ o ∉ l := by
  induction l with
  | nil => simp
  | cons i l ih =>
    intro b o
    rw [List.foldl_cons, ih, Bitmap.test_clear, List.mem_cons, not_or, Bool.and_eq_true,
      Bool.not_eq_true', decide_eq_false_iff_not, eq_comm (a := o)]
    tauto

variable {P : ℕ → Prop}

theorem Taken.congr {Q : ℕ → Prop} (h : Taken fm fm' P) (hpq : ∀ f, P f ↔ Q f) : Taken fm fm' Q :=
  (funext fun f => propext (hpq f) : P = Q) ▸ h

theorem Taken.trans {Q : ℕ → Prop} (h : Taken fm fm' P) (h₂ : Taken fm' fm₂ Q) :
    Taken fm fm₂ fun f => P f ∨ Q f := by
  refine ⟨h₂.inv, h₂.lplock.trans h.lplock, h₂.bitcount.trans h.bitcount, ?_, fun f => ?_⟩
  · rintro f (hf | hf)
    · exact h.wasFree f hf
    · exact ((h.free f).mp (h₂.wasFree f hf)).1
  · rw [h₂.free, h.free, not_or, and_assoc]

/-- A run of large bits, cleared one by one, hands out its blocks. -/
theorem taken_clears (k : ℕ) {b : ℕ} (hinv : Inv fm) (hlarge : (∀ j < k, fm.largeFree (b + j))) :
    Taken fm { fm with
      largeFrames := (List.range' b k).foldl HierarchicalBitmap.clear fm.largeFrames } fun f =>
      b ≤ f / pagetableentries ∧ f / pagetableentries < b + k := by
  induction k generalizing fm b with
  | zero => exact ⟨hinv, rfl, rfl, by omega, fun f => ⟨fun hf => ⟨hf, by omega⟩, And.left⟩⟩
  | succ k ih =>
    have h0 : fm.largeFree b := hlarge 0 (by omega)
    have hfirst := taken_clear hinv h0
    have hrest := ih (b := b + 1) hfirst.inv fun j hj => by
      rw [largeFree_clear hinv.valid h0.1]
      have := hlarge (1 + j) (by omega)
      exact ⟨by rwa [← Nat.add_assoc] at this, by omega⟩
    exact (hfirst.trans hrest).congr fun f => by omega

variable {i : ℕ} {b : FrameBitmap}

/-- Splitting a free block and clearing a part of it hands out that part. -/
theorem taken_split (hinv : Inv fm) (hi : fm.largeFree i)
    (hb : ∀ o, b.test o = true ↔ o < 512 ∧ ¬ P o) (hP : ∃ o < 512, P o) (hne : b.empty = false) :
    Taken fm { fm with
      largeFrames := fm.largeFrames.clear i
      smallFrames := fm.smallFrames.insert i b } fun f =>
        f / pagetableentries = i ∧ P (f % pagetableentries) := by
  have hlarge : ∀ j, largeFree ⟨fm.lplock, fm.largeFrames.clear i, fm.splock,
      fm.smallFrames.insert i b, fm.bitcount⟩ j ↔ fm.largeFree j ∧ j ≠ i :=
    fun j => largeFree_clear hinv.valid hi.1
  have hsmall : ∀ j, small ⟨fm.lplock, fm.largeFrames.clear i, fm.splock,
      fm.smallFrames.insert i b, fm.bitcount⟩ j = if i = j then some b else fm.small j :=
    small_insert fm i b
  have hnotfull : b.full = false := by
    rw [Bool.eq_false_iff, Ne, Bitmap.full_iff (by norm_num)]
    intro hall
    obtain ⟨o, ho, hPo⟩ := hP
    exact ((hb o).mp (hall o ho)).2 hPo
  have hcase : ∀ {j c}, small ⟨fm.lplock, fm.largeFrames.clear i, fm.splock,
      fm.smallFrames.insert i b, fm.bitcount⟩ j = some c →
        (j = i ∧ c = b) ∨ fm.small j = some c := by
    intro j c hc
    rw [hsmall] at hc
    split at hc
    · rename_i he
      exact Or.inl ⟨he.symm, (Option.some.inj hc).symm⟩
    · exact Or.inr hc
  refine ⟨⟨⟨fun {j c} hc => ?_, fun {j c} hc => ?_, fun {j c} hc => ?_⟩,
    (clear_spec hinv.valid hi.1).1, hinv.bounded, fun {j c} hc => ?_, hinv.unlocked⟩, rfl, rfl,
    fun f hf => Or.inl (hf.1 ▸ hi), fun f => ?_⟩
  · rw [hlarge]
    rcases hcase hc with ⟨rfl, -⟩ | hold
    · exact fun h => h.2 rfl
    · exact fun h => hinv.not_large hold h.1
  · rcases hcase hc with ⟨-, rfl⟩ | hold
    · exact hne
    · exact hinv.not_empty hold
  · rcases hcase hc with ⟨-, rfl⟩ | hold
    · exact hnotfull
    · exact hinv.not_full hold
  · rcases hcase hc with ⟨rfl, -⟩ | hold
    · exact hi.1
    · exact hinv.inRange hold
  · rw [FrameManager.free, FrameManager.free, freeIn, freeIn, hlarge, hsmall]
    by_cases hf : i = f / pagetableentries
    · subst hf
      have h512 : f % pagetableentries < 512 := Nat.mod_lt _ (by decide)
      simp [hi, hb, h512]
    · simp [hf, Ne.symm hf]

/-! ## The contract -/

/-- The size after rounding: whole frames, or whole blocks from a block on. -/
def contigSize (size : ℕ) : ℕ :=
  let frames := (size + sps - 1) / sps * sps
  if frames < dps then frames else (size + dps - 1) / dps * dps

section

variable (fm : FrameManager)

/-- What the caller of `allocContig` relies on: nothing is handed out and the containers are as they
were, or exactly the frames of an aligned free range that ends at or below `lim` are handed out. -/
def Contiguous (size align lim : ℕ) : Except Fault (ℕ × ℕ × FrameManager) → Prop
  | .ok (base, size', fm') =>
      (base = topaddr ∧ fm'.largeFrames = fm.largeFrames ∧ fm'.smallFrames = fm.smallFrames) ∨
      (base % align = 0 ∧ base + size' ≤ lim ∧ size' = contigSize size ∧
        Taken fm fm' fun f => base ≤ f * sps ∧ f * sps < base + size')
  | .error _ => False

/-- A partial block has an aligned run of `size` free bytes that ends at or below `lim`. -/
def SmallRun (size align lim : ℕ) : Prop :=
  ∃ i b o, fm.small i = some b ∧ o + size / sps ≤ pagetableentries ∧
    (∀ j < size / sps, b.test (o + j) = true) ∧ (i * dps + o * sps) % align = 0 ∧
    i * dps + o * sps + size ≤ lim

/-- The condition for less than a block: a partial block has the run; or `lplock` is free, `lim` is
not so close to `2 ^ 64` that "none" passes for a block, and the first free block, if it is below
`lim`, is aligned. -/
def SmallSafe (size align lim : ℕ) : Prop :=
  SmallRun fm size align lim ∨ (fm.lplock = false ∧
    ((∀ i, ¬ fm.largeFree i) → lim < wordSize - dps + size) ∧
    ∀ i, fm.largeFree i → (∀ j < i, ¬ fm.largeFree j) → i * dps + size ≤ lim → i * dps % align = 0)

/-- The condition for whole blocks: `lplock` is free, and if no block is free then more than one is
asked for, or an alignment that "none" does not have. -/
def LargeSafe (size align : ℕ) : Prop :=
  fm.lplock = false ∧ ((∀ i, ¬ fm.largeFree i) → size ≠ dps ∨ dps < align)

/-- The calls that meet the contract. -/
def ContigSafe (size align lim : ℕ) : Prop :=
  if contigSize size < dps then SmallSafe fm (contigSize size) align lim
  else LargeSafe fm (contigSize size) align

end

/-! ## Less than a block -/

theorem sps_eq : sps = 2 ^ 12 := rfl

theorem entries_eq : pagetableentries = 512 := rfl

variable {o : ℕ}

theorem frameAddr_eq (hi : i * dps ≤ 2 ^ framebits) (ho : o < 512) :
    frameAddr i o = i * dps + o * sps := by
  rw [dps_eq, framebits, pageoffsetbits] at hi
  rw [frameAddr, dps_eq, sps_eq, wordSize]
  exact Nat.mod_eq_of_lt (by omega)

theorem blockAddr_eq (hi : i * dps ≤ 2 ^ framebits) : blockAddr i = i * dps :=
  Nat.mod_eq_of_lt (hi.trans_lt (by decide))

variable {k : ℕ}

theorem searchBlock_spec (align lim : ℕ) (hi : i * dps ≤ 2 ^ framebits) (hb : b.empty = false)
    (hk : 0 < k) (hk' : k < 512) : ∃ r, searchBlock (k * sps) align lim i b = .ok r ∧
      Search.Right b.test (frameAddr i) pagetableentries sps align lim k r := by
  have hfs : b.findset ≠ 64 * 8 := fun he => by
    rw [(Bitmap.findset_eq_iff b).mp he] at hb
    cases hb
  obtain ⟨hbit, hfirst⟩ := Bitmap.findset_spec hfs
  have hlt : b.findset < 512 := Bitmap.lt_of_test hbit
  have hstart :
      InHand b.test (frameAddr i) pagetableentries sps align lim k 0 b.findset b.findset :=
    inHand_first hk hfirst
  have hmono : ∀ o o', o ≤ o' → o' < pagetableentries → frameAddr i o ≤ frameAddr i o' := by
    intro o o' ho ho'
    rw [entries_eq] at ho'
    rw [frameAddr_eq hi (by omega), frameAddr_eq hi ho']
    exact Nat.add_le_add_left (Nat.mul_le_mul_right _ ho) _
  have hword : ∀ o < pagetableentries, frameAddr i o + k * sps < wordSize := by
    intro o ho
    rw [entries_eq] at ho
    rw [frameAddr_eq hi ho, sps_eq, wordSize]
    rw [framebits, pageoffsetbits] at hi
    omega
  rw [searchBlock]
  simpa using runSearch_spec (by decide) sps_pos hmono hword (pagetableentries + 1) hstart
    (fun _ => rfl) hlt hbit (by omega) b.findset (by simp)

/-- What the loop over the partial blocks finds. -/
def SmallFound (l : List (ℕ × FrameBitmap)) (k align lim : ℕ) :
    Option (ℕ × FrameBitmap × ℕ × ℕ) → Prop
  | none => ∀ i b, (i, b) ∈ l → ∀ o, ¬ Fits b.test (frameAddr i) pagetableentries sps align lim k o
  | some (i, b, o, e) =>
      (i, b) ∈ l ∧ Fits b.test (frameAddr i) pagetableentries sps align lim k o ∧ e + 1 = o + k

variable {lim : ℕ}

/-- **The loop over `smallFrames` finds a run exactly if there is one.**  It gives up at the first
address beyond the limit, and the blocks are in ascending order. -/
theorem searchSmall_spec {align : ℕ} (hk : 0 < k) (hk' : k < 512) (l : List (ℕ × FrameBitmap))
    (hsorted : l.Pairwise (fun p q => p.1 < q.1))
    (hall : ∀ i b, (i, b) ∈ l → i * dps ≤ 2 ^ framebits ∧ b.empty = false) :
    ∃ r, searchSmall (k * sps) align lim l = .ok r ∧ SmallFound l k align lim r := by
  induction l with
  | nil => exact ⟨none, rfl, by simp [SmallFound]⟩
  | cons p rest ih =>
    obtain ⟨i, b⟩ := p
    obtain ⟨hi, hne⟩ := hall i b List.mem_cons_self
    obtain ⟨hlt, hsorted'⟩ := List.pairwise_cons.mp hsorted
    obtain ⟨r, hr, hright⟩ := searchBlock_spec align lim hi hne hk hk'
    rw [searchSmall, hr]
    cases r with
    | hit o e => exact ⟨_, rfl, List.mem_cons_self, hright⟩
    | beyond =>
      refine ⟨none, rfl, fun i' b' hmem o hf => ?_⟩
      obtain ⟨⟨o₁, ho₁, hover⟩, hno⟩ := hright
      rcases List.mem_cons.mp hmem with he | hrest
      · cases he
        exact hno o hf
      · have hii : i < i' := hlt _ hrest
        have hin := hf.inside
        have hbelow := hf.below
        rw [entries_eq] at hin ho₁
        rw [frameAddr_eq (hall i' b' hmem).1 (by omega)] at hbelow
        rw [frameAddr_eq hi ho₁] at hover
        rw [dps_eq, sps_eq] at hover hbelow
        omega
    | exhausted =>
      obtain ⟨r, hr, hfound⟩ := ih hsorted' fun i b h => hall i b (List.mem_cons_of_mem _ h)
      refine ⟨r, hr, ?_⟩
      cases r with
      | none =>
        intro i' b' hmem
        rcases List.mem_cons.mp hmem with he | hrest
        · cases he
          exact hright
        · exact hfound i' b' hrest
      | some _ => exact ⟨List.mem_cons_of_mem _ hfound.1, hfound.2⟩

/-- The entries of `smallFrames` as the loop meets them. -/
theorem smallFrames_toList (hinv : Inv fm) (hcap : fm.bitcount * dps ≤ 2 ^ framebits) :
    fm.smallFrames.toList.Pairwise (fun p q => p.1 < q.1) ∧
      ∀ i b, (i, b) ∈ fm.smallFrames.toList → i * dps ≤ 2 ^ framebits ∧ b.empty = false := by
  refine ⟨TreeMap.ordered_keys_toList.imp fun h => Nat.compare_eq_lt.mp h, fun i b h => ?_⟩
  have hb : fm.small i = some b := TreeMap.mem_toList_iff_getElem?_eq_some.mp h
  exact ⟨(Nat.mul_le_mul_right _ (hinv.inRange hb).le).trans hcap, hinv.not_empty hb⟩

variable {e : ℕ}

/-- A run of the search is a run of free frames below the limit. -/
theorem fits_iff (hi : i * dps ≤ 2 ^ framebits) (hk : 0 < k) :
    Fits b.test (frameAddr i) pagetableentries sps (2 ^ e) lim k o ↔
      o + k ≤ pagetableentries ∧ (∀ j < k, b.test (o + j) = true) ∧
        (i * dps + o * sps) % 2 ^ e = 0 ∧ i * dps + o * sps + k * sps ≤ lim := by
  constructor
  · rintro ⟨hin, hset, hgood, hbelow⟩
    rw [frameAddr_eq hi (by rw [entries_eq] at hin; omega)] at hgood hbelow
    exact ⟨hin, hset, aligned_iff.mp hgood, hbelow⟩
  · rintro ⟨hin, hset, hgood, hbelow⟩
    rw [← frameAddr_eq hi (by rw [entries_eq] at hin; omega)] at hgood hbelow
    exact ⟨hin, hset, aligned_iff.mpr hgood, hbelow⟩

/-- The first block `findset` reports. -/
theorem findset_first (hinv : Inv fm) (h : fm.largeFrames.findset ≠ limit) :
    fm.largeFree fm.largeFrames.findset ∧ ∀ j < fm.largeFrames.findset, ¬ fm.largeFree j := by
  have hne : fm.largeFrames.empty = false := by
    rwa [Ne, findset_eq_limit_iff hinv.valid hinv.bounded.le, Bool.not_eq_true] at h
  obtain ⟨hlt, ht, hleast⟩ := HierarchicalBitmap.findset_spec hinv.valid hne
  exact ⟨⟨hlt, ht⟩, fun j hj hfree => absurd (hleast j hfree.1 hfree.2) (by omega)⟩

/-- A cleared prefix of a full bitmap. -/
theorem test_filled_clear (o : ℕ) :
    ((List.range k).foldl Bitmap.clear (Bitmap.filled : FrameBitmap)).test o = true ↔
      o < 512 ∧ ¬ o < k := by
  rw [test_foldl_clear, List.mem_range]
  refine and_congr_left fun _ => ⟨fun h => Bitmap.lt_of_test h, fun h => Bitmap.test_filled h⟩

/-- The frames of a range that starts in a block and does not leave it. -/
theorem mem_range_iff {f : ℕ} (hok : o + k ≤ 512) :
    (f / pagetableentries = i ∧ o ≤ f % pagetableentries ∧ f % pagetableentries < o + k) ↔
      i * dps + o * sps ≤ f * sps ∧ f * sps < i * dps + o * sps + k * sps := by
  rw [entries_eq, dps_eq, sps_eq]
  omega

/-- **Splitting a block** meets the contract exactly under the second half of the condition. -/
theorem useLargeFrame_iff (hinv : Inv fm) (hcap : fm.bitcount * dps ≤ 2 ^ framebits) (hk : 0 < k)
    (hk' : k < 512) (hsize : k * sps = contigSize size) :
    Contiguous fm size (2 ^ e) lim (fm.useLargeFrame (k * sps) lim) ↔
      fm.lplock = false ∧ ((∀ i, ¬ fm.largeFree i) → lim < wordSize - dps + k * sps) ∧
        ∀ i, fm.largeFree i → (∀ j < i, ¬ fm.largeFree j) → i * dps + k * sps ≤ lim →
          i * dps % 2 ^ e = 0 := by
  cases hlp : fm.lplock with
  | true =>
    rw [useLargeFrame, hlp]
    exact iff_of_false id (by simp)
  | false =>
    rw [useLargeFrame, scopedLock_of_false hlp, eq_self_iff_true, true_and]
    dsimp only
    have hks : k * sps < dps := by rw [sps_eq, dps_eq]; omega
    by_cases hlim : fm.largeFrames.findset = limit
    · -- "none" is the block at `2 ^ 64 - dps`
      have hnone := (largeFrames_findset_eq_limit_iff hinv).mp hlim
      have hend : wadd (blockAddr limit) (k * sps) = wordSize - dps + k * sps := by
        rw [show blockAddr limit = wordSize - dps from rfl]
        exact wadd_of_lt (by rw [dps_eq, wordSize] at *; omega)
      simp only [hlim, hend, hnone, not_false_eq_true, implies_true, true_imp_iff, false_imp_iff,
        and_true]
      by_cases hover : wordSize - dps + k * sps > lim
      · rw [if_pos hover]
        exact iff_of_true (Or.inl ⟨rfl, rfl, rfl⟩) hover
      · rw [if_neg hover, if_pos hinv.bounded.le]
        exact iff_of_false id hover
    · obtain ⟨hfree, hfirst⟩ := findset_first hinv hlim
      generalize fm.largeFrames.findset = idx at *
      have hidx : idx * dps ≤ 2 ^ framebits := (Nat.mul_le_mul_right _ hfree.1.le).trans hcap
      have hend : wadd (blockAddr idx) (k * sps) = idx * dps + k * sps := by
        rw [blockAddr_eq hidx]
        exact wadd_of_lt
          (by rw [framebits, pageoffsetbits] at hidx; rw [dps_eq, wordSize] at *; omega)
      -- the condition speaks of this block
      have hcond : (((∀ i, ¬ fm.largeFree i) → lim < wordSize - dps + k * sps) ∧
          ∀ i, fm.largeFree i → (∀ j < i, ¬ fm.largeFree j) → i * dps + k * sps ≤ lim →
            i * dps % 2 ^ e = 0) ↔ (idx * dps + k * sps ≤ lim → idx * dps % 2 ^ e = 0) := by
        refine ⟨fun h => h.2 idx hfree hfirst, fun h => ⟨fun hno => absurd hfree (hno idx), ?_⟩⟩
        intro i hi hmin
        rcases Nat.lt_trichotomy i idx with hlt | rfl | hgt
        · exact absurd hi (hfirst i hlt)
        · exact h
        · exact absurd hfree (hmin idx hgt)
      rw [hcond, hend, blockAddr_eq hidx]
      by_cases hover : idx * dps + k * sps > lim
      · rw [if_pos hover]
        exact iff_of_true (Or.inl ⟨rfl, rfl, rfl⟩) (by omega)
      · have hsmall : fm.small idx = none := by
          cases hb : fm.small idx with
          | none => rfl
          | some b => exact absurd hfree (hinv.not_large hb)
        have hne : ((List.range (k * sps / sps)).foldl Bitmap.clear
            (Bitmap.filled : FrameBitmap)).empty = false := by
          rw [Nat.mul_div_cancel _ sps_pos]
          exact empty_eq_false_of_test ((test_filled_clear k).mpr ⟨hk', by omega⟩)
        rw [if_neg hover, if_neg (by have := hfree.1; omega), hsmall, Option.getD_none, hne,
          if_neg (by simp)]
        have htaken :=
          taken_split hinv hfree (fun o => test_filled_clear (k := k) o) ⟨0, by omega, hk⟩
          (by rwa [Nat.mul_div_cancel _ sps_pos] at hne)
        rw [Nat.mul_div_cancel _ sps_pos]
        constructor
        · rintro (⟨htop, -, -⟩ | ⟨hal, -, -, -⟩) _
          · exact absurd htop (mul_dps_ne_topaddr idx)
          · exact hal
        · intro hal
          refine Or.inr ⟨hal (by omega), by omega, hsize, htaken.congr fun f => ?_⟩
          have := mem_range_iff (i := idx) (o := 0) (f := f) (show 0 + k ≤ 512 by omega)
          simpa using this

/-- **Less than a block.** -/
theorem contigSmall_iff (hinv : Inv fm) (hcap : fm.bitcount * dps ≤ 2 ^ framebits) (hk : 0 < k)
    (hk' : k < 512) (hsize : k * sps = contigSize size) :
    Contiguous fm size (2 ^ e) lim (fm.contigSmall (k * sps) (2 ^ e) lim) ↔
      SmallSafe fm (k * sps) (2 ^ e) lim := by
  obtain ⟨hsorted, hall⟩ := smallFrames_toList hinv hcap
  obtain ⟨r, hr, hfound⟩ := searchSmall_spec hk hk' _ hsorted hall
  have hin : ∀ {i b}, fm.small i = some b → i * dps ≤ 2 ^ framebits := fun hb =>
    (Nat.mul_le_mul_right _ (hinv.inRange hb).le).trans hcap
  have hmem : ∀ {i b}, (i, b) ∈ fm.smallFrames.toList ↔ fm.small i = some b :=
    TreeMap.mem_toList_iff_getElem?_eq_some
  have hrun : SmallRun fm (k * sps) (2 ^ e) lim ↔ ∃ i b o, fm.small i = some b ∧
      Fits b.test (frameAddr i) pagetableentries sps (2 ^ e) lim k o := by
    rw [SmallRun, Nat.mul_div_cancel _ sps_pos]
    refine exists_congr fun i => exists_congr fun b => exists_congr fun o =>
      and_congr_right fun hb => ?_
    rw [fits_iff (hin hb) hk]
  rw [contigSmall, scopedLock_of_false hinv.unlocked, hr, SmallSafe, hrun]
  match r, hfound with
  | none, hno =>
    rw [or_iff_right (by rintro ⟨i, b, o, hb, hf⟩; exact hno i b (hmem.mpr hb) o hf)]
    exact useLargeFrame_iff hinv hcap hk hk' hsize
  | some (i, b, o, last), ⟨hib, hf, hlast⟩ =>
    have hb := hmem.mp hib
    refine iff_of_true (Or.inr ?_) (Or.inl ⟨i, b, o, hb, hf⟩)
    obtain ⟨hok, hset, hgood, hbelow⟩ := (fits_iff (hin hb) hk).mp hf
    rw [entries_eq] at hok
    rw [frameAddr_eq (hin hb) (by omega)]
    refine ⟨hgood, hbelow, hsize, ?_⟩
    have htaken := taken_putBack (P := fun j => o ≤ j ∧ j < o + k) (hinv.opened (· = i)) hb
      (fun j => by rw [test_foldl_clear (List.range' o (last + 1 - o)), List.mem_range'_1, hlast,
        Nat.add_sub_cancel_left])
      (fun j hj => by have := hset (j - o) (by omega); rwa [Nat.add_sub_cancel' hj.1] at this)
      ⟨o, le_rfl, by omega⟩
    exact htaken.congr fun f => mem_range_iff hok

/-! ## Whole blocks -/

/-- "None" is aligned to a block and no further. -/
theorem aligned_blockAddr_limit (e : ℕ) : aligned (blockAddr limit) (2 ^ e) = true ↔
      2 ^ e ≤ dps := by
  have hval : blockAddr limit = 2 ^ 21 * (2 ^ 43 - 1) := rfl
  rw [aligned_iff, hval, ← Nat.dvd_iff_mod_eq_zero, dps_eq]
  constructor
  · intro h
    have hcop : Nat.Coprime (2 ^ e) (2 ^ 43 - 1) := Nat.Coprime.pow_left e (by decide)
    exact Nat.le_of_dvd (by decide) (hcop.dvd_of_dvd_mul_right h)
  · intro h
    exact (Nat.pow_dvd_pow 2 ((Nat.pow_le_pow_iff_right (by decide)).mp h)).mul_right _

/-- A run of the search is a run of free blocks below the limit, and its frames are handed out. -/
theorem taken_of_fits {b : ℕ} (hinv : Inv fm) (hcap : fm.bitcount * dps ≤ 2 ^ framebits)
    (hk : 0 < k) (hf : Fits fm.largeFrames.test blockAddr fm.bitcount dps (2 ^ e) lim k b) :
    blockAddr b % 2 ^ e = 0 ∧ blockAddr b + k * dps ≤ lim ∧
      Taken fm { fm with
        largeFrames := (List.range' b k).foldl HierarchicalBitmap.clear fm.largeFrames } fun f =>
        blockAddr b ≤ f * sps ∧ f * sps < blockAddr b + k * dps := by
  have hin := hf.inside
  refine ⟨aligned_iff.mp hf.good, hf.below, ?_⟩
  have hb : b * dps ≤ 2 ^ framebits := (Nat.mul_le_mul_right _ (by omega)).trans hcap
  rw [blockAddr_eq hb]
  refine (taken_clears k hinv fun j hj => ⟨by omega, hf.set j hj⟩).congr fun f => ?_
  rw [entries_eq, dps_eq, sps_eq]
  omega

/-- **Whole blocks.** -/
theorem contigLarge_iff (hinv : Inv fm) (hcap : fm.bitcount * dps ≤ 2 ^ framebits) (hk : 0 < k)
    (hk' : k * dps ≤ 2 ^ framebits) (hsize : k * dps = contigSize size) {size' : ℕ}
    (hup : alignUp size' dps = k * dps) :
    Contiguous fm size (2 ^ e) lim (fm.contigLarge size' (2 ^ e) lim) ↔
      LargeSafe fm (k * dps) (2 ^ e) := by
  cases hlp : fm.lplock with
  | true =>
    rw [contigLarge, LargeSafe, hlp]
    exact iff_of_false id (by simp)
  | false =>
    have hn : fm.bitcount < wordSize := hinv.bounded.trans (by decide)
    rw [contigLarge, LargeSafe, scopedLock_of_false hlp, and_iff_right hlp, hup]
    dsimp only
    by_cases hlim : fm.largeFrames.findset = limit
    · have hnone := (largeFrames_findset_eq_limit_iff hinv).mp hlim
      have hclear : ∀ j < fm.bitcount, fm.largeFrames.test j = false := fun j hj => by
        have := hnone j
        simp only [largeFree, hj, true_and] at this
        simpa using this
      have hend : wadd (blockAddr limit) (k * dps) = (k - 1) * dps := by
        obtain ⟨j, rfl⟩ : ∃ j, k = j + 1 := ⟨k - 1, by omega⟩
        rw [framebits, pageoffsetbits] at hk'
        rw [wadd, show blockAddr limit = wordSize - dps from rfl, dps_eq, wordSize] at *
        omega
      have hgood := aligned_blockAddr_limit e
      rw [hlim, runSearch_none hn hclear _ _ (Nat.mul_pos hk dps_pos), hend]
      by_cases hhit : aligned (blockAddr limit) (2 ^ e) = true ∧ k * dps ≤ dps
      · -- one block, and "none" passes for one
        have hle := hgood.mp hhit.1
        obtain rfl : k = 1 := by rw [dps_eq] at hhit; omega
        rw [if_neg (by simp), if_pos hhit]
        dsimp only
        rw [if_pos hinv.bounded.le]
        exact iff_of_false id fun h => by have := h hnone; omega
      · rw [if_neg hhit]
        refine iff_of_true ?_ fun _ => ?_
        · by_cases hover : (k - 1) * dps > lim
          · rw [if_pos hover]
            exact Or.inl ⟨rfl, rfl, rfl⟩
          · rw [if_neg hover]
            exact Or.inl ⟨rfl, rfl, rfl⟩
        · rw [hgood] at hhit
          omega
    · obtain ⟨hfree, hfirst⟩ := findset_first hinv hlim
      refine iff_of_true ?_ fun hno => absurd hfree (hno _)
      have hblock : ∀ b < fm.bitcount, blockAddr b = b * dps ∧ b * dps ≤ 2 ^ framebits := by
        intro b hb
        have hle := (Nat.mul_le_mul_right dps hb.le).trans hcap
        exact ⟨blockAddr_eq hle, hle⟩
      have hstart : InHand fm.largeFrames.test blockAddr fm.bitcount dps (2 ^ e) lim k 0
          fm.largeFrames.findset fm.largeFrames.findset := inHand_first hk fun j hj => by
        have := hfirst j hj
        simp only [largeFree, hj.trans hfree.1, true_and] at this
        simpa using this
      have hmono : ∀ b b', b ≤ b' → b' < fm.bitcount → blockAddr b ≤ blockAddr b' := by
        intro b b' hb hb'
        rw [(hblock b (by omega)).1, (hblock b' hb').1]
        exact Nat.mul_le_mul_right _ hb
      have hword : ∀ b < fm.bitcount, blockAddr b + k * dps < wordSize := by
        intro b hb
        obtain ⟨he, hle⟩ := hblock b hb
        rw [framebits, pageoffsetbits] at hle hk'
        rw [he, wordSize]
        omega
      obtain ⟨r, hr, hright⟩ := runSearch_spec hn dps_pos hmono hword (fm.bitcount + 1) hstart
        (fun _ => rfl) hfree.1 hfree.2 (by omega) fm.largeFrames.findset (by simp)
      rw [Nat.zero_mul] at hr
      rw [hr]
      cases r with
      | hit b last =>
        obtain ⟨hf, hlast⟩ := hright
        have hin := hf.inside
        obtain ⟨hgood, hbelow, htaken⟩ := taken_of_fits hinv hcap hk hf
        dsimp only
        rw [if_neg (by omega), hlast, Nat.add_sub_cancel_left]
        exact Or.inr ⟨hgood, hbelow, hsize, htaken⟩
      | beyond => exact Or.inl ⟨rfl, rfl, rfl⟩
      | exhausted => exact Or.inl ⟨rfl, rfl, rfl⟩

/-! ## The call -/

/-- Rounding up to frames and then to blocks is rounding up to blocks. -/
theorem round_up_twice (size : ℕ) :
    ((size + sps - 1) / sps * sps + dps - 1) / dps * dps = (size + dps - 1) / dps * dps := by
  rw [sps_eq, dps_eq]
  omega

/-- **`allocContig` meets its contract exactly under the condition**, for every size below `2 ^ 52`,
every power of two and every limit. -/
theorem allocContig_contiguous_iff {size e lim : ℕ} (hinv : Inv fm)
    (hcap : fm.bitcount * dps ≤ 2 ^ framebits) (hpos : 0 < size) (hsize : size < 2 ^ 52) :
    Contiguous fm size (2 ^ e) lim (fm.allocContig size (2 ^ e) lim) ↔
      ContigSafe fm size (2 ^ e) lim := by
  have hframes : alignUp size sps = (size + sps - 1) / sps * sps :=
    alignUp_eq (k := 12) (by rw [wordSize]; omega) (by decide)
  have hk : 0 < (size + sps - 1) / sps := Nat.div_pos (by omega) sps_pos
  rw [allocContig, ContigSafe, hframes]
  by_cases hlt : (size + sps - 1) / sps * sps < dps
  · have he : contigSize size = (size + sps - 1) / sps * sps := if_pos hlt
    have hk' : (size + sps - 1) / sps < 512 := by
      rw [dps_eq, sps_eq] at hlt
      rw [sps_eq]
      omega
    rw [if_pos hlt, he, if_pos hlt]
    exact contigSmall_iff hinv hcap hk hk' he.symm
  · have he : contigSize size = (size + dps - 1) / dps * dps := if_neg hlt
    have hge : ¬ (size + dps - 1) / dps * dps < dps := by
      rw [dps_eq]
      omega
    have hbound : (size + dps - 1) / dps * dps ≤ 2 ^ framebits := by
      rw [framebits, pageoffsetbits, dps_eq]
      omega
    have hup : alignUp ((size + sps - 1) / sps * sps) dps = (size + dps - 1) / dps * dps := by
      rw [← round_up_twice]
      exact alignUp_eq (k := 21) (by rw [wordSize, sps_eq]; omega) (by decide)
    rw [if_neg hlt, he, if_neg hge]
    exact contigLarge_iff hinv hcap (Nat.div_pos (by omega) dps_pos) hbound he.symm hup

/-- A memory of four blocks of which the second is free. -/
theorem exists_oneBlock : ∃ fm,
    ((init (2 ^ 23)).bind fun fm => fm.releaseRegion (2 ^ 21) (2 ^ 21)) = .ok fm ∧ Inv fm ∧
      fm.lplock = false ∧ fm.bitcount * dps ≤ 2 ^ framebits := by
  obtain ⟨fm₀, hfm₀, hinv₀, hlp, hcov, hnone⟩ := init_spec (show 0 < 2 ^ 23 by decide) (by decide)
  obtain ⟨fm, hfm, hrel⟩ := releaseRegion_spec hinv₀ hlp (show 2 ^ 21 % sps = 0 by decide)
    (show 2 ^ 21 % sps = 0 by decide) (by omega) fun f _ _ => hnone f
  have hcount : (init (2 ^ 23)).map (·.bitcount) = .ok 4 := by decide +kernel
  rw [hfm₀] at hcount
  have hb : fm.bitcount = 4 := hrel.bitcount.trans (Except.ok.inj hcount)
  refine ⟨fm, by rw [hfm₀]; exact hfm, hrel.inv, hrel.lplock.trans hlp, ?_⟩
  rw [hb]
  decide

/-- One frame out of a free block. -/
theorem allocContig_contiguous_iff_oneFrame : ∃ fm,
    ((init (2 ^ 23)).bind fun fm => fm.releaseRegion (2 ^ 21) (2 ^ 21)) = .ok fm ∧
      ContigSafe fm 4096 (2 ^ 0) (2 ^ 23) ∧
      (fm.allocContig 4096 (2 ^ 0) (2 ^ 23)).map Prod.fst = .ok (2 ^ 21) ∧
      Contiguous fm 4096 (2 ^ 0) (2 ^ 23) (fm.allocContig 4096 (2 ^ 0) (2 ^ 23)) := by
  obtain ⟨fm, hfm, hinv, hlp, hcap⟩ := exists_oneBlock
  have hcall : (((init (2 ^ 23)).bind fun fm => fm.releaseRegion (2 ^ 21) (2 ^ 21)).bind fun fm =>
      (fm.allocContig 4096 (2 ^ 0) (2 ^ 23)).map Prod.fst) = .ok (2 ^ 21) := by decide +kernel
  rw [hfm] at hcall
  have hsafe : ContigSafe fm 4096 (2 ^ 0) (2 ^ 23) := by
    rw [ContigSafe, if_pos (by decide)]
    exact Or.inr ⟨hlp, fun _ => by decide, fun i _ _ _ => Nat.mod_one _⟩
  exact ⟨fm, hfm, hsafe, hcall,
    (allocContig_contiguous_iff hinv hcap (by decide) (by decide)).mpr hsafe⟩

/-- **The contract fails**: the block that is split is not checked against `align`; and with no
block free, one block is asked for and "none" is cleared as if it were one. -/
theorem allocContig_misaligned :
    (∃ fm, ((init (2 ^ 23)).bind fun fm => fm.releaseRegion (2 ^ 21) (2 ^ 21)) = .ok fm ∧
      (fm.allocContig 4096 (2 ^ 22) topaddr).map Prod.fst = .ok (2 ^ 21) ∧
      ¬ Contiguous fm 4096 (2 ^ 22) topaddr (fm.allocContig 4096 (2 ^ 22) topaddr)) ∧
    ∃ fm, init (2 ^ 23) = .ok fm ∧ fm.allocContig (2 ^ 21) 1 topaddr = .error .outOfBounds ∧
      ¬ Contiguous fm (2 ^ 21) 1 topaddr (fm.allocContig (2 ^ 21) 1 topaddr) := by
  constructor
  · obtain ⟨fm, hfm, -⟩ := exists_oneBlock
    have hcall : (((init (2 ^ 23)).bind fun fm => fm.releaseRegion (2 ^ 21) (2 ^ 21)).bind fun fm =>
        (fm.allocContig 4096 (2 ^ 22) topaddr).map Prod.fst) = .ok (2 ^ 21) := by decide +kernel
    rw [hfm] at hcall
    obtain ⟨⟨a, size, fm'⟩, hr, rfl⟩ := Fault.map_eq_ok hcall
    refine ⟨fm, hfm, hcall, ?_⟩
    rw [hr]
    rintro (⟨htop, -⟩ | ⟨hal, -⟩)
    · exact absurd htop (by decide)
    · exact absurd hal (by decide)
  · obtain ⟨fm, hfm, -⟩ := init_spec (show 0 < 2 ^ 23 by decide) (by decide)
    have hcall : ((init (2 ^ 23)).bind fun fm => (fm.allocContig (2 ^ 21) 1 topaddr).map Prod.fst)
        = .error .outOfBounds := by decide +kernel
    rw [hfm] at hcall
    have hr : fm.allocContig (2 ^ 21) 1 topaddr = .error .outOfBounds := Fault.map_eq_error hcall
    exact ⟨fm, hfm, hr, by rw [hr]; exact id⟩

end FrameManager

end Kos

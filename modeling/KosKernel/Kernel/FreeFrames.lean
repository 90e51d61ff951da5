import KosKernel.Kernel.FrameManager

/-!
# Kernel/FreeFrames — the frame manager refines a set of free frames

One specification per call of `kernel/FrameManager.h`, read on the set `free`: a call that returns
keeps the invariant and changes the set by exactly the frames it hands out or takes back.  Whether
it returns is a question of `lplock` alone.
-/

namespace Kos

open Std (TreeMap)
open HierarchicalBitmap

namespace FrameManager

variable {fm fm' : FrameManager}

/-! ## Reading the containers after an update -/

theorem small_insert (fm : FrameManager) (i : ℕ) (b : FrameBitmap) (j : ℕ) :
    (fm.smallFrames.insert i b)[j]? = if i = j then some b else fm.small j := by
  rw [TreeMap.getElem?_insert, small]
  simp only [Std.compare_eq_iff_eq]

theorem small_erase (fm : FrameManager) (i j : ℕ) :
    (fm.smallFrames.erase i)[j]? = if i = j then none else fm.small j := by
  rw [TreeMap.getElem?_erase, small]
  simp only [Std.compare_eq_iff_eq]

theorem small_of_isEmpty (h : fm.smallFrames.isEmpty = true) (i : ℕ) : fm.small i = none := by
  rw [small, TreeMap.getElem?_of_isEmpty h]

variable {i : ℕ}

/-- `largeFrames.set` adds one block. -/
theorem largeFree_set {lp sp : Bool} {m : TreeMap ℕ FrameBitmap} {j : ℕ}
    (hv : fm.largeFrames.Valid fm.bitcount) (hj : j < fm.bitcount) :
    largeFree ⟨lp, fm.largeFrames.set j, sp, m, fm.bitcount⟩ i ↔ i = j ∨ fm.largeFree i := by
  unfold largeFree
  by_cases hi : i < fm.bitcount
  · simp only [hi, true_and, (set_spec (by norm_num) hv hj).2 i hi, Bool.or_eq_true,
      decide_eq_true_eq]
  · simp only [hi, false_and, or_false, false_iff]
    exact fun he => hi (he ▸ hj)

/-- `largeFrames.clear` removes one block. -/
theorem largeFree_clear {lp sp : Bool} {m : TreeMap ℕ FrameBitmap} {j : ℕ}
    (hv : fm.largeFrames.Valid fm.bitcount) (hj : j < fm.bitcount) :
    largeFree ⟨lp, fm.largeFrames.clear j, sp, m, fm.bitcount⟩ i ↔ fm.largeFree i ∧ i ≠ j := by
  unfold largeFree
  by_cases hi : i < fm.bitcount
  · simp only [hi, true_and, (clear_spec hv hj).2 i hi, Bool.and_eq_true, Bool.not_eq_true',
      decide_eq_false_iff_not, and_comm, ne_eq]
  · simp only [hi, false_and]

/-- Setting a run of bits one by one. -/
theorem test_foldl_set {N : ℕ} (l : List ℕ) (b : Bitmap N) (hl : (∀ i ∈ l, i < 64 * N)) :
    ∀ o, (l.foldl Bitmap.set b).test o = (decide (o ∈ l) || b.test o) := by
  induction l generalizing b with
  | nil => intro o; simp
  | cons i l ih =>
    intro o
    rw [List.foldl_cons, ih _ (fun j hj => hl j (List.mem_cons_of_mem _ hj)),
      Bitmap.test_set _ (hl i List.mem_cons_self)]
    by_cases ho : o = i
    · simp [ho]
    · simp [ho, Ne.symm ho]

/-- A block outside both containers, or in the map only, is free where its bitmap says so. -/
theorem freeIn_of_not_large (h : ¬ fm.largeFree i) (o : ℕ) :
    fm.freeIn i o ↔ ((fm.small i).getD Bitmap.zero).test o = true := by
  rw [freeIn, or_iff_right h]
  cases fm.small i with
  | none => simp
  | some b => simp

variable {o : ℕ}

theorem div_entries (i : ℕ) (ho : o < 512) : (i * 512 + o) / pagetableentries = i := by
  rw [show pagetableentries = 512 from rfl]
  omega

theorem mod_entries (i : ℕ) (ho : o < 512) : (i * 512 + o) % pagetableentries = o := by
  rw [show pagetableentries = 512 from rfl]
  omega

/-! ## `releaseSmall` -/

/-- The number of frames `releaseSmall` covers: up to the end of the block. -/
def covered (addr size : ℕ) : ℕ :=
  min pagetableentries (addr % dps / sps + size / sps) - addr % dps / sps

theorem sps_pos : 0 < sps := pagesize_pos _

theorem dps_pos : 0 < dps := pagesize_pos _

/-- The offset of an address in its block. -/
theorem offset_lt (addr : ℕ) : addr % dps / sps < pagetableentries := by
  simp only [dps, sps, pagesize, pagesizebits, pageoffsetbits, pagetablebits, pagetableentries,
    dpl, spl]
  omega

theorem covered_le (addr size : ℕ) : covered addr size ≤ size / sps :=
  Nat.sub_le_iff_le_add'.mpr (min_le_right _ _)

variable {size : ℕ}

theorem covered_pos (addr : ℕ) (h : sps ≤ size) : 0 < covered addr size := by
  have h1 := offset_lt addr
  have h2 : 1 ≤ size / sps := (Nat.one_le_div_iff sps_pos).mpr h
  unfold covered
  omega

/-- The bitmap `releaseSmall` leaves for the block. -/
def filledBitmap (fm : FrameManager) (addr size : ℕ) : FrameBitmap :=
  (List.range' (addr % dps / sps) (covered addr size)).foldl Bitmap.set
    ((fm.small (addr / dps)).getD Bitmap.zero)

theorem releaseSmall_eq (fm : FrameManager) (addr size : ℕ) : fm.releaseSmall addr size =
    if (fm.filledBitmap addr size).full then
      scopedLock fm.lplock <| .ok (covered addr size * sps, { fm with
        smallFrames := fm.smallFrames.erase (addr / dps)
        largeFrames := fm.largeFrames.set (addr / dps) })
    else .ok (covered addr size * sps, { fm with
      smallFrames := fm.smallFrames.insert (addr / dps) (fm.filledBitmap addr size) }) := rfl

theorem test_filledBitmap (fm : FrameManager) (addr size o : ℕ) :
    (fm.filledBitmap addr size).test o = true ↔
      (addr % dps / sps ≤ o ∧ o < addr % dps / sps + covered addr size) ∨
        ((fm.small (addr / dps)).getD Bitmap.zero).test o = true := by
  have hrange : ∀ i ∈ List.range' (addr % dps / sps) (covered addr size), i < 64 * 8 := by
    intro i hi
    have := List.mem_range'_1.mp hi
    have h512 : pagetableentries = 64 * 8 := rfl
    unfold covered at this
    omega
  rw [filledBitmap, test_foldl_set _ _ hrange, Bool.or_eq_true, decide_eq_true_eq,
    List.mem_range'_1]

variable {addr f : ℕ}

/-- A frame is in the covered run exactly when it is in the block, at a covered offset. -/
theorem mem_covered_iff (ha : addr % sps = 0) :
    (addr / sps ≤ f ∧ f < addr / sps + covered addr size) ↔ f / pagetableentries = addr / dps ∧
      addr % dps / sps ≤ f % pagetableentries ∧
      f % pagetableentries < addr % dps / sps + covered addr size := by
  have hc : addr % dps / sps + covered addr size ≤ pagetableentries := by
    have h1 := offset_lt addr
    unfold covered
    omega
  generalize covered addr size = n at *
  simp only [dps, sps, pagesize, pagesizebits, pageoffsetbits, pagetablebits, pagetableentries,
    dpl, spl] at *
  omega

/-- What it means for a call to have added the frames `P`. -/
structure Released (fm fm' : FrameManager) (P : ℕ → Prop) : Prop where
  inv : Inv fm'
  lplock : fm'.lplock = fm.lplock
  bitcount : fm'.bitcount = fm.bitcount
  free : ∀ f, fm'.free f ↔ fm.free f ∨ P f

/-- The invariant does not speak of `lplock`. -/
theorem Inv.acquire_lplock (h : Inv fm) : Inv { fm with lplock := true } :=
  ⟨{ h with }, h.valid, h.bounded, h.inRange, h.unlocked⟩

/-- **`releaseSmall` frees exactly the run it covers.** -/
theorem releaseSmall_spec {len : ℕ} (hinv : Inv fm) (ha : addr % sps = 0)
    (hin : addr / dps < fm.bitcount) (hsize : sps ≤ size) (hnl : ¬ fm.largeFree (addr / dps))
    (h : fm.releaseSmall addr size = .ok (len, fm')) : len = covered addr size * sps ∧
      Released fm fm' fun f => addr / sps ≤ f ∧ f < addr / sps + covered addr size := by
  have hblock : ∀ f, f / pagetableentries = addr / dps →
      (fm.free f ↔ ((fm.small (addr / dps)).getD Bitmap.zero).test (f % pagetableentries) = true) :=
    fun f hf => by rw [free, hf, freeIn_of_not_large hnl]
  have htest := test_filledBitmap fm addr size
  rw [releaseSmall_eq] at h
  split at h
  · -- the block has become full and moves to `largeFrames`
    rename_i hfull
    obtain ⟨-, h⟩ := scopedLock_eq_ok.mp h
    cases h
    have hval := (set_spec (by norm_num) hinv.valid hin).1
    have hlarge : ∀ i, (FrameManager.mk fm.lplock (fm.largeFrames.set (addr / dps)) fm.splock
        (fm.smallFrames.erase (addr / dps)) fm.bitcount).largeFree i
          ↔ i = addr / dps ∨ fm.largeFree i := fun i => largeFree_set hinv.valid hin
    have hsmall : ∀ i, (FrameManager.mk fm.lplock (fm.largeFrames.set (addr / dps)) fm.splock
        (fm.smallFrames.erase (addr / dps)) fm.bitcount).small i
          = if addr / dps = i then none else fm.small i := small_erase fm _
    refine ⟨rfl, ⟨⟨⟨fun {i b} hb => ?_, fun {i b} hb => ?_, fun {i b} hb => ?_⟩, hval, hinv.bounded,
      fun {i b} hb => ?_, hinv.unlocked⟩, rfl, rfl, fun f => ?_⟩⟩
    all_goals try (rw [hsmall] at hb; split at hb; · cases hb)
    · rename_i hne
      rw [hlarge]
      exact fun hc => hc.elim (fun he => hne he.symm) (hinv.not_large hb)
    · exact hinv.not_empty hb
    · exact hinv.not_full hb
    · exact hinv.inRange hb
    · rw [mem_covered_iff ha]
      by_cases hf : f / pagetableentries = addr / dps
      · have hall := (Bitmap.full_iff (by norm_num) _).mp hfull (f % pagetableentries)
          (Nat.mod_lt _ (by decide))
        have hlf : (FrameManager.mk fm.lplock (fm.largeFrames.set (addr / dps)) fm.splock
            (fm.smallFrames.erase (addr / dps)) fm.bitcount).free f :=
          Or.inl ((hlarge _).mpr (Or.inl hf))
        simp only [hlf, true_iff, hblock f hf, hf, true_and]
        exact ((htest _).mp hall).symm
      · simp only [hf, false_and, or_false, free, freeIn, hlarge, hsmall, Ne.symm hf, if_false,
          false_or]
  · -- the block stays in `smallFrames`
    rename_i hfull
    cases h
    have hlarge : ∀ i, (FrameManager.mk fm.lplock fm.largeFrames fm.splock
        (fm.smallFrames.insert (addr / dps) (fm.filledBitmap addr size)) fm.bitcount).largeFree i
          ↔ fm.largeFree i := fun i => Iff.rfl
    have hsmall : ∀ i, (FrameManager.mk fm.lplock fm.largeFrames fm.splock
        (fm.smallFrames.insert (addr / dps) (fm.filledBitmap addr size)) fm.bitcount).small i
          = if addr / dps = i then some (fm.filledBitmap addr size) else fm.small i :=
      small_insert fm _ _
    have hnonempty : (fm.filledBitmap addr size).empty = false :=
      empty_eq_false_of_test (k := addr % dps / sps) ((htest _).mpr (Or.inl
        ⟨le_rfl, by have := covered_pos addr hsize; omega⟩))
    refine ⟨rfl, ⟨⟨⟨fun {i b} hb => ?_, fun {i b} hb => ?_, fun {i b} hb => ?_⟩, hinv.valid,
      hinv.bounded, fun {i b} hb => ?_, hinv.unlocked⟩, rfl, rfl, fun f => ?_⟩⟩
    all_goals try rw [hsmall] at hb; split at hb
    · rename_i he
      exact he ▸ hnl
    · exact hinv.not_large hb
    · obtain rfl : _ = b := Option.some.inj hb
      exact hnonempty
    · exact hinv.not_empty hb
    · obtain rfl : _ = b := Option.some.inj hb
      simpa using hfull
    · exact hinv.not_full hb
    · rename_i he
      exact he ▸ hin
    · exact hinv.inRange hb
    · rw [mem_covered_iff ha]
      by_cases hf : f / pagetableentries = addr / dps
      · rw [hblock f hf, free, freeIn, hlarge, hsmall, if_pos hf.symm, or_iff_right (hf ▸ hnl)]
        simp only [Option.some.injEq, exists_eq_left', htest, hf, true_and]
        exact or_comm
      · simp only [hf, false_and, or_false, free, freeIn, hlarge, hsmall, Ne.symm hf, if_false]

theorem releaseSmall_returns (addr size : ℕ) (h : fm.lplock = false) :
    ∃ r, fm.releaseSmall addr size = .ok r := by
  rw [releaseSmall_eq, h]
  split
  · exact ⟨_, rfl⟩
  · exact ⟨_, rfl⟩

/-! ## `allocFrame` -/

/-- What it means for a call to have handed out the frames `P`. -/
structure Taken (fm fm' : FrameManager) (P : ℕ → Prop) : Prop where
  inv : Inv fm'
  lplock : fm'.lplock = fm.lplock
  bitcount : fm'.bitcount = fm.bitcount
  wasFree : ∀ f, P f → fm.free f
  free : ∀ f, fm'.free f ↔ fm.free f ∧ ¬ P f

/-- The invariant while the bitmaps of some blocks are being worked on: those may be full. -/
structure Opened (fm : FrameManager) (P : ℕ → Prop) : Prop where
  not_large : ∀ {i b}, fm.small i = some b → ¬ fm.largeFree i
  not_empty : ∀ {i b}, fm.small i = some b → b.empty = false
  not_full : ∀ {i b}, fm.small i = some b → ¬ P i → b.full = false
  valid : fm.largeFrames.Valid fm.bitcount
  bounded : fm.bitcount < limit
  inRange : ∀ {i b}, fm.small i = some b → i < fm.bitcount
  unlocked : fm.splock = false

theorem Inv.opened (h : Inv fm) (P : ℕ → Prop) : Opened fm P :=
  { h with not_full := fun hb _ => h.not_full hb }

theorem small_of_minKey? (h : fm.smallFrames.minKey? = some i) : ∃ b, fm.small i = some b := by
  have hmem := (TreeMap.minKey?_eq_some_iff_mem_and_forall.mp h).1
  rw [TreeMap.mem_iff_isSome_getElem?] at hmem
  exact Option.isSome_iff_exists.mp hmem

/-- The block number and the offset of a frame determine it. -/
theorem frame_eq_iff (ho : o < 512) :
    f = i * 512 + o ↔ f / pagetableentries = i ∧ f % pagetableentries = o := by
  rw [show pagetableentries = 512 from rfl]
  omega

/-- The map after the bitmap of block `i` has been cleared in part: the entry is written back, or
erased if nothing is left. -/
def putBack (fm : FrameManager) (i : ℕ) (b : FrameBitmap) : FrameManager :=
  { fm with smallFrames := if b.empty then fm.smallFrames.erase i else fm.smallFrames.insert i b }

theorem small_putBack (fm : FrameManager) (i : ℕ) (b : FrameBitmap) (j : ℕ) :
    (fm.putBack i b).small j
      = if i = j then (if b.empty then none else some b) else fm.small j := by
  by_cases he : b.empty = true
  · simp only [small, putBack, he, if_true, small_erase]
  · simp only [small, putBack, if_neg he, small_insert]

/-- **Clearing bits of a partial block hands out exactly their frames.** -/
theorem taken_putBack {b b' : FrameBitmap} {P : ℕ → Prop} (hs : Opened fm (· = i))
    (hb : fm.small i = some b) (hclear : ∀ o, b'.test o = true ↔ b.test o = true ∧ ¬ P o)
    (hP : ∀ o, P o → b.test o = true) (hne : ∃ o, P o) :
    Taken fm (fm.putBack i b') fun f => f / pagetableentries = i ∧ P (f % pagetableentries) := by
  have hnotfull : b'.full = false := by
    rw [Bool.eq_false_iff, Ne, Bitmap.full_iff (by norm_num)]
    intro hall
    obtain ⟨o, ho⟩ := hne
    exact ((hclear o).mp (hall o (Bitmap.lt_of_test (hP o ho)))).2 ho
  have hcase : ∀ {j c}, (fm.putBack i b').small j = some c →
      (j = i ∧ c = b' ∧ c.empty = false) ∨ (j ≠ i ∧ fm.small j = some c) := by
    intro j c hc
    rw [small_putBack] at hc
    split at hc
    · rename_i he
      obtain ⟨hne, hc⟩ := Option.ite_none_left_eq_some.mp hc
      cases hc
      exact Or.inl ⟨he.symm, rfl, by simpa using hne⟩
    · rename_i he
      exact Or.inr ⟨Ne.symm he, hc⟩
  refine ⟨⟨⟨fun {j c} hc => ?_, fun {j c} hc => ?_, fun {j c} hc => ?_⟩, hs.valid, hs.bounded,
    fun {j c} hc => ?_, hs.unlocked⟩, rfl, rfl, fun f hf => ?_, fun f => ?_⟩
  · show ¬ fm.largeFree j
    rcases hcase hc with ⟨rfl, -, -⟩ | ⟨-, hold⟩
    · exact hs.not_large hb
    · exact hs.not_large hold
  · rcases hcase hc with ⟨-, -, hne⟩ | ⟨-, hold⟩
    · exact hne
    · exact hs.not_empty hold
  · rcases hcase hc with ⟨-, rfl, -⟩ | ⟨hne, hold⟩
    · exact hnotfull
    · exact hs.not_full hold hne
  · rcases hcase hc with ⟨rfl, -, -⟩ | ⟨-, hold⟩
    · exact hs.inRange hb
    · exact hs.inRange hold
  · exact Or.inr ⟨b, hf.1 ▸ hb, hP _ hf.2⟩
  · by_cases hf : f / pagetableentries = i
    · have hnl : ¬ fm.largeFree (f / pagetableentries) := hf ▸ hs.not_large hb
      have hnl' : ¬ (fm.putBack i b').largeFree (f / pagetableentries) := hnl
      rw [FrameManager.free, freeIn_of_not_large hnl', FrameManager.free, freeIn_of_not_large hnl,
        small_putBack, if_pos hf.symm, hf, hb]
      simp only [Option.getD_some, true_and]
      rw [← hclear]
      by_cases he : b'.empty = true
      · simp only [he, if_true, Option.getD_none, Bitmap.test_zero, (Bitmap.empty_iff _).mp he]
      · simp only [he, Bool.false_eq_true, if_false, Option.getD_some]
    · simp only [hf, false_and, not_false_iff, and_true, FrameManager.free, freeIn, small_putBack,
        Ne.symm hf, if_false]
      rfl

variable {a : ℕ}

/-- **`takeSmall` hands out one free frame.** -/
theorem takeSmall_spec (hs : Opened fm (fm.smallFrames.minKey? = some ·))
    (h : fm.takeSmall = .ok (a, fm')) :
    ∃ f, a = f * sps ∧ f < fm.bitcount * 512 ∧ Taken fm fm' (· = f) := by
  unfold takeSmall at h
  split at h
  · cases h
  rename_i idx hmin
  obtain ⟨b, hb⟩ := small_of_minKey? hmin
  simp only [hb, Option.getD_some] at h
  have hbit := (Bitmap.findset_first (hs.not_empty hb)).1
  have hlt : b.findset < 512 := Bitmap.lt_of_test hbit
  have hclear : ∀ o, (b.clear b.findset).test o = true ↔ b.test o = true ∧ ¬ o = b.findset :=
    fun o => by
      rw [Bitmap.test_clear, Bool.and_eq_true, Bool.not_eq_true', decide_eq_false_iff_not,
        and_comm, eq_comm (a := o)]
  cases h
  refine ⟨idx * 512 + b.findset, ?_, ?_, ?_⟩
  · show idx * dps + b.findset * sps = (idx * 512 + b.findset) * sps
    rw [show dps = 512 * sps from rfl]
    ring
  · have := hs.inRange hb
    omega
  · have hopen : Opened fm (· = idx) := { hs with
      not_full := fun hb hne => hs.not_full hb fun hc =>
        hne (Option.some.inj (hc.symm.trans hmin)) }
    simp only [frame_eq_iff hlt]
    exact taken_putBack hopen hb hclear (fun o ho => ho ▸ hbit) ⟨_, rfl⟩

theorem takeSmall_returns (h : fm.smallFrames.isEmpty = false) : ∃ r, fm.takeSmall = .ok r := by
  unfold takeSmall
  cases hmin : fm.smallFrames.minKey? with
  | none =>
    rw [TreeMap.minKey?_eq_none_iff.mp hmin] at h
    cases h
  | some idx => exact ⟨_, rfl⟩

/-- `findset` reports `limit` exactly when no block is free as a whole. -/
theorem findset_eq_limit_iff_not_largeFree (hv : fm.largeFrames.Valid fm.bitcount)
    (hb : fm.bitcount < limit) : fm.largeFrames.findset = limit ↔ ∀ i, ¬ fm.largeFree i := by
  rw [findset_eq_limit_iff hv hb.le, hv.empty_iff]
  simp only [largeFree, not_and, Bool.not_eq_true]

theorem largeFrames_findset_eq_limit_iff (hinv : Inv fm) : fm.largeFrames.findset = limit ↔
      ∀ i, ¬ fm.largeFree i :=
  findset_eq_limit_iff_not_largeFree hinv.valid hinv.bounded

/-- Otherwise it is the first such block. -/
theorem largeFree_findset (hinv : Inv fm) (h : fm.largeFrames.findset ≠ limit) :
    fm.largeFree fm.largeFrames.findset := by
  have hne : fm.largeFrames.empty = false := by
    rwa [Ne, findset_eq_limit_iff hinv.valid hinv.bounded.le, Bool.not_eq_true] at h
  obtain ⟨hlt, ht, -⟩ := HierarchicalBitmap.findset_spec hinv.valid hne
  exact ⟨hlt, ht⟩

/-- A free block split into a full bitmap, which `allocFrame<1>` does when `smallFrames` is
empty. -/
def splitBlock (fm : FrameManager) (idx : ℕ) : FrameManager :=
  { fm with
    largeFrames := fm.largeFrames.clear idx
    smallFrames := fm.smallFrames.insert idx Bitmap.filled }

theorem small_splitBlock (hempty : fm.smallFrames.isEmpty = true) (idx i : ℕ) :
    (fm.splitBlock idx).small i = if idx = i then some Bitmap.filled else none := by
  rw [small, splitBlock, small_insert, small_of_isEmpty hempty]

/-- Splitting a block keeps the set of free frames. -/
theorem free_splitBlock (hinv : Inv fm) (hempty : fm.smallFrames.isEmpty = true) {idx : ℕ}
    (hidx : fm.largeFree idx) (f : ℕ) : (fm.splitBlock idx).free f ↔ fm.free f := by
  rw [FrameManager.free, FrameManager.free, freeIn, freeIn, small_splitBlock hempty,
    small_of_isEmpty hempty, splitBlock, largeFree_clear hinv.valid hidx.1]
  by_cases hf : idx = f / pagetableentries
  · have h512 : f % pagetableentries < 64 * 8 := Nat.mod_lt _ (by decide)
    subst hf
    simp [hidx, Bitmap.test_filled h512]
  · simp [hf, Ne.symm hf]

theorem opened_splitBlock (hinv : Inv fm) (hempty : fm.smallFrames.isEmpty = true) {idx : ℕ}
    (hidx : fm.largeFree idx) :
    Opened (fm.splitBlock idx) ((fm.splitBlock idx).smallFrames.minKey? = some ·) := by
  have hcase : ∀ {i b}, (fm.splitBlock idx).small i = some b → i = idx ∧ b = Bitmap.filled := by
    intro i b hb
    rw [small_splitBlock hempty] at hb
    split at hb
    · rename_i he
      exact ⟨he.symm, (Option.some.inj hb).symm⟩
    · cases hb
  refine ⟨fun hb => ?_, fun hb => ?_, fun hb hm => ?_, (clear_spec hinv.valid hidx.1).1,
    hinv.bounded, fun hb => ?_, hinv.unlocked⟩
  all_goals obtain ⟨rfl, rfl⟩ := hcase hb
  · rw [splitBlock, largeFree_clear hinv.valid hidx.1]
    exact fun hc => hc.2 rfl
  · exact empty_eq_false_of_test (k := 0) (Bitmap.test_filled (by norm_num))
  · exact absurd (TreeMap.minKey?_insert_of_isEmpty hempty) hm
  · exact hidx.1

/-- **`allocFrame<1>`**: one free frame, or `topaddr` — with `lplock` left acquired — if there is
none. -/
theorem allocFrame1_spec (hinv : Inv fm) (h : fm.allocFrame1 = .ok (a, fm')) :
    (a = topaddr ∧ (∀ f, ¬ fm.free f) ∧ fm' = { fm with lplock := true }) ∨
      ∃ f, a = f * sps ∧ f < fm.bitcount * 512 ∧ Taken fm fm' (· = f) := by
  obtain ⟨-, h⟩ := scopedLock_eq_ok.mp h
  split at h
  · rename_i hempty
    split at h
    · cases h
    dsimp only at h
    split at h
    · -- neither container has anything
      rename_i hlim
      cases h
      refine Or.inl ⟨rfl, fun f hf => ?_, rfl⟩
      rcases hf with hl | ⟨b, hb, -⟩
      · exact (largeFrames_findset_eq_limit_iff hinv).mp hlim _ hl
      · rw [small_of_isEmpty hempty] at hb
        cases hb
    · -- split the first free block
      rename_i hlim
      have hidx := largeFree_findset hinv hlim
      have hfree := free_splitBlock hinv hempty hidx
      obtain ⟨f, rfl, hf, ht⟩ := takeSmall_spec (opened_splitBlock hinv hempty hidx) h
      exact Or.inr ⟨f, rfl, hf, ht.inv, ht.lplock, ht.bitcount,
        fun g hg => (hfree g).mp (ht.wasFree g hg), fun g => by rw [ht.free g, hfree g]⟩
  · exact Or.inr (takeSmall_spec (hinv.opened _) h)

theorem allocFrame1_returns (hs : fm.splock = false) (h : fm.lplock = false) :
    ∃ r, fm.allocFrame1 = .ok r := by
  unfold allocFrame1
  rw [hs, h, scopedLock_false]
  by_cases he : fm.smallFrames.isEmpty = true
  · rw [if_pos he, if_neg (by simp)]
    by_cases hl : fm.largeFrames.findset = limit
    · exact ⟨_, if_pos hl⟩
    · simp only [hl, if_false]
      exact takeSmall_returns TreeMap.isEmpty_insert
  · rw [if_neg he]
    exact takeSmall_returns (by simpa using he)

/-- A block all of whose frames are free is in `largeFrames`. -/
theorem largeFree_iff (hinv : Inv fm) (i : ℕ) : fm.largeFree i ↔ ∀ f, f / pagetableentries = i →
      fm.free f := by
  constructor
  · rintro h f rfl
    exact Or.inl h
  · intro hall
    by_contra hnl
    have hbits : ∀ o < 64 * 8, ((fm.small i).getD Bitmap.zero).test o = true := fun o ho => by
      have := hall _ (div_entries i ho)
      rwa [FrameManager.free, div_entries i ho, mod_entries i ho, freeIn_of_not_large hnl] at this
    cases hb : fm.small i with
    | none =>
      have := hbits 0 (by norm_num)
      simp [hb] at this
    | some b =>
      rw [hb] at hbits
      have hfull := (Bitmap.full_iff (by norm_num) b).mpr hbits
      rw [hinv.not_full hb] at hfull
      cases hfull

/-- **Clearing the large bit of a block hands out the whole block.** -/
theorem taken_clear (hinv : Inv fm) (hi : fm.largeFree i) :
    Taken fm { fm with largeFrames := fm.largeFrames.clear i } fun f =>
      f / pagetableentries = i := by
  refine ⟨⟨{ hinv with not_large := fun hb hc => ?_ }, (clear_spec hinv.valid hi.1).1,
    hinv.bounded, hinv.inRange, hinv.unlocked⟩, rfl, rfl, fun f hf => Or.inl (hf ▸ hi), fun f => ?_⟩
  · rw [largeFree_clear hinv.valid hi.1] at hc
    exact hinv.not_large hb hc.1
  · rw [FrameManager.free, FrameManager.free, freeIn, freeIn, largeFree_clear hinv.valid hi.1]
    by_cases hf : f / pagetableentries = i
    · have hno : ∀ b, fm.small i ≠ some b := fun b hb => hinv.not_large hb hi
      simp only [small] at hno
      simp [hf, small, hno]
    · simp [hf, small]

/-- **`allocFrame<2>`**: an aligned block that was free as a whole, or `topaddr` if there is
none. -/
theorem allocFrame2_spec (hinv : Inv fm) (h : fm.allocFrame2 = .ok (a, fm')) :
    (a = topaddr ∧ (∀ i, ∃ f, f / pagetableentries = i ∧ ¬ fm.free f) ∧ fm' = fm) ∨
      ∃ i, a = i * dps ∧ i < fm.bitcount ∧ Taken fm fm' fun f => f / pagetableentries = i := by
  obtain ⟨-, h⟩ := scopedLock_eq_ok.mp h
  dsimp only at h
  split at h
  · rename_i hlim
    cases h
    refine Or.inl ⟨rfl, fun i => ?_, rfl⟩
    have hnl := (largeFrames_findset_eq_limit_iff hinv).mp hlim i
    rw [largeFree_iff hinv] at hnl
    push Not at hnl
    exact hnl
  · rename_i hlim
    have hidx := largeFree_findset hinv hlim
    cases h
    exact Or.inr ⟨_, rfl, hidx.1, taken_clear hinv hidx⟩

theorem allocFrame2_returns (h : fm.lplock = false) : ∃ r, fm.allocFrame2 = .ok r := by
  unfold allocFrame2
  rw [h, scopedLock_false]
  dsimp only
  split
  · exact ⟨_, rfl⟩
  · exact ⟨_, rfl⟩

/-! ## `releaseFrame` -/

theorem aligned_sps : aligned addr sps = true ↔ addr % sps = 0 :=
  aligned_iff (k := 12)

theorem aligned_dps : aligned addr dps = true ↔ addr % dps = 0 :=
  aligned_iff (k := 21)

/-- The block of an address is that of its frame. -/
theorem div_dps (addr : ℕ) : addr / dps = addr / sps / pagetableentries :=
  (Nat.div_div_eq_div_mul addr sps pagetableentries).symm

/-- A block with a frame that is not free is not in `largeFrames`. -/
theorem not_largeFree_of_not_free (h : ¬ fm.free f) : ¬ fm.largeFree (f / pagetableentries) :=
  fun hl => h (Or.inl hl)

/-- `largeFrames.set` on a block none of whose frames is free. -/
theorem releaseLarge_spec (hinv : Inv fm) (hi : i < fm.bitcount)
    (hout : ∀ f, f / pagetableentries = i → ¬ fm.free f) :
    Released fm { fm with largeFrames := fm.largeFrames.set i } fun f =>
      f / pagetableentries = i := by
  -- a bitmap of the block would have a set bit, hence a free frame
  have hno : ∀ b, fm.small i ≠ some b := fun b hb => by
    obtain ⟨k, hk⟩ := exists_test_of_empty_eq_false (hinv.not_empty hb)
    have hk512 : k < 512 := Bitmap.lt_of_test hk
    refine hout (i * 512 + k) (div_entries i hk512) (Or.inr ⟨b, ?_, ?_⟩)
    · rw [div_entries i hk512]
      exact hb
    · rw [mod_entries i hk512]
      exact hk
  refine ⟨⟨{ hinv with not_large := fun {j b} hb hc => ?_ },
    (set_spec (by norm_num) hinv.valid hi).1, hinv.bounded, hinv.inRange, hinv.unlocked⟩, rfl, rfl,
    fun f => ?_⟩
  · rw [largeFree_set hinv.valid hi] at hc
    rcases hc with rfl | hc
    · exact hno b hb
    · exact hinv.not_large hb hc
  · rw [FrameManager.free, FrameManager.free, freeIn, freeIn, largeFree_set hinv.valid hi]
    simp only [small]
    rw [or_assoc, or_comm]

/-- **`releaseFrame<1>` frees exactly its frame.** -/
theorem releaseFrame1_spec (hinv : Inv fm) (hin : addr / dps < fm.bitcount)
    (hout : ¬ fm.free (addr / sps)) (h : fm.releaseFrame1 addr = .ok fm') :
    Released fm fm' (· = addr / sps) := by
  unfold releaseFrame1 at h
  split at h
  · rename_i ha
    have ha := aligned_sps.mp ha
    obtain ⟨-, h⟩ := scopedLock_eq_ok.mp h
    obtain ⟨⟨len, fm''⟩, hr, rfl⟩ : ∃ r, fm.releaseSmall addr sps = .ok r ∧ r.2 = fm' := by
      cases hr : fm.releaseSmall addr sps with
      | error e => rw [hr] at h; cases h
      | ok r =>
        rw [hr] at h
        exact ⟨r, rfl, by simpa [Except.map] using h⟩
    have hnl : ¬ fm.largeFree (addr / dps) := div_dps addr ▸ not_largeFree_of_not_free hout
    obtain ⟨-, hrel⟩ := releaseSmall_spec hinv ha hin le_rfl hnl hr
    have hone : covered addr sps = 1 := by
      have h1 := covered_le addr sps
      have h2 := covered_pos addr (le_refl sps)
      rw [Nat.div_self sps_pos] at h1
      omega
    refine { hrel with free := fun f => ?_ }
    rw [hrel.free, hone, show (addr / sps ≤ f ∧ f < addr / sps + 1) ↔ f = addr / sps by omega]
  · cases h

theorem releaseFrame1_returns (ha : addr % sps = 0) (hs : fm.splock = false)
    (h : fm.lplock = false) : ∃ fm', fm.releaseFrame1 addr = .ok fm' := by
  obtain ⟨r, hr⟩ := releaseSmall_returns addr sps h
  refine ⟨r.2, ?_⟩
  rw [releaseFrame1, if_pos (show aligned addr (pagesize spl) = true from aligned_sps.mpr ha), hs,
    scopedLock_false, hr]
  rfl

/-- **`releaseFrame<2>` frees exactly its block.** -/
theorem releaseFrame2_spec (hinv : Inv fm) (hin : addr / dps < fm.bitcount)
    (hout : ∀ f, f / pagetableentries = addr / dps → ¬ fm.free f)
    (h : fm.releaseFrame2 addr = .ok fm') :
    Released fm fm' fun f => f / pagetableentries = addr / dps := by
  unfold releaseFrame2 at h
  split at h
  · obtain ⟨-, h⟩ := scopedLock_eq_ok.mp h
    cases h
    exact releaseLarge_spec hinv hin hout
  · cases h

theorem releaseFrame2_returns (ha : addr % dps = 0) (h : fm.lplock = false) :
    ∃ fm', fm.releaseFrame2 addr = .ok fm' := by
  rw [releaseFrame2, if_pos (show aligned addr (pagesize dpl) = true from aligned_dps.mpr ha), h]
  exact ⟨_, rfl⟩

/-! ## `releaseRegion` -/

/-- **The step level of `releaseRegion`**: a whole block exactly when the address is aligned to one
and the rest of the region has one. -/
theorem regionLevel_lt_iff (ha : addr % sps = 0) (hsize : sps ≤ size) :
    regionLevel addr size < dpl ↔ ¬ (addr % dps = 0 ∧ dps ≤ size) := by
  have hpos : size ≠ 0 := (lt_of_lt_of_le sps_pos hsize).ne'
  have h1 : 12 ≤ alignment addr := (le_alignment_iff (by decide)).mpr ha
  have h2 : 12 ≤ floorlog2 size := (le_floorlog2_iff hpos).mpr hsize
  have h3 : 21 ≤ alignment addr ↔ addr % dps = 0 := le_alignment_iff (by decide)
  have h4 : 21 ≤ floorlog2 size ↔ dps ≤ size := le_floorlog2_iff hpos
  rw [← h3, ← h4, regionLevel]
  simp only [pageoffsetbits, pagetablebits, dpl]
  omega

/-- **One iteration of `releaseRegion`** frees a non-empty run of frames at the start of the
region. -/
theorem regionStep_spec (hinv : Inv fm) (hlp : fm.lplock = false) (ha : addr % sps = 0)
    (hsize : sps ≤ size) (hin : addr + size ≤ fm.bitcount * dps)
    (hout : ∀ f, addr / sps ≤ f → f < addr / sps + size / sps → ¬ fm.free f) :
    ∃ n fm', fm.regionStep addr size = .ok (n * sps, fm') ∧ 0 < n ∧ n ≤ size / sps ∧
      Released fm fm' fun f => addr / sps ≤ f ∧ f < addr / sps + n := by
  have hpos : 1 ≤ size / sps := (Nat.one_le_div_iff sps_pos).mpr hsize
  have hblock : addr / dps < fm.bitcount := by
    rw [Nat.div_lt_iff_lt_mul dps_pos]
    have := sps_pos
    omega
  unfold regionStep
  split
  · rw [hinv.unlocked, scopedLock_false]
    obtain ⟨⟨len, fm'⟩, hr⟩ := releaseSmall_returns addr size hlp
    have hnl : ¬ fm.largeFree (addr / dps) :=
      div_dps addr ▸ not_largeFree_of_not_free (hout _ le_rfl (by omega))
    obtain ⟨rfl, hrel⟩ := releaseSmall_spec hinv ha hblock hsize hnl hr
    exact ⟨_, fm', hr, covered_pos _ hsize, covered_le _ _, hrel⟩
  · rename_i hlevel
    obtain ⟨had, hsd⟩ := not_not.mp (mt (regionLevel_lt_iff ha hsize).mpr hlevel)
    have hmem : ∀ f, f / pagetableentries = addr / dps ↔
        addr / sps ≤ f ∧ f < addr / sps + pagetableentries := fun f => by
      simp only [dps, sps, pagesize, pagesizebits, pageoffsetbits, pagetablebits, pagetableentries,
        dpl, spl] at *
      omega
    have hle : pagetableentries ≤ size / sps := by
      simp only [dps, sps, pagesize, pagesizebits, pageoffsetbits, pagetablebits, pagetableentries,
        dpl, spl] at *
      omega
    have hrel := releaseLarge_spec hinv hblock fun f hf =>
      hout f ((hmem f).mp hf).1 (lt_of_lt_of_le ((hmem f).mp hf).2 (by omega))
    refine ⟨pagetableentries, _, scopedLock_eq_ok.mpr ⟨hlp, rfl⟩, by decide, hle, hrel.inv,
      hrel.lplock, hrel.bitcount, fun f => ?_⟩
    rw [hrel.free, hmem]

/-- The loop, by induction on the fuel: every iteration covers at least one frame. -/
theorem regionLoop_spec (fuel : ℕ) (addr size : ℕ) (hinv : Inv fm) (hlp : fm.lplock = false)
    (ha : addr % sps = 0) (hs : size % sps = 0) (hfuel : size / sps ≤ fuel)
    (hin : addr + size ≤ fm.bitcount * dps)
    (hout : (∀ f, addr / sps ≤ f → f < addr / sps + size / sps → ¬ fm.free f)) :
    ∃ fm', regionLoop fuel fm addr size = .ok fm' ∧ Released fm fm' fun f => addr / sps ≤ f ∧
      f < addr / sps + size / sps := by
  induction fuel generalizing fm addr size with
  | zero =>
    have h0 : size = 0 := by
      rw [← Nat.div_add_mod size sps, hs, Nat.le_zero.mp hfuel, mul_zero]
    subst h0
    exact ⟨fm, rfl, hinv, rfl, rfl, fun f => by simp⟩
  | succ fuel ih =>
    by_cases h0 : size = 0
    · subst h0
      exact ⟨fm, rfl, hinv, rfl, rfl, fun f => by simp⟩
    · have hsize : sps ≤ size := Nat.le_of_dvd (Nat.pos_of_ne_zero h0) (Nat.dvd_of_mod_eq_zero hs)
      obtain ⟨n, fm₁, hstep, hn, hle, hrel⟩ := regionStep_spec hinv hlp ha hsize hin hout
      -- the rest of the region, in frames
      have haddr : (addr + n * sps) / sps = addr / sps + n := Nat.add_mul_div_right _ _ sps_pos
      have hrest : (size - n * sps) / sps = size / sps - n := by
        rw [mul_comm]
        exact Nat.sub_mul_div size sps n
      have hmul : n * sps ≤ size := by
        rw [← Nat.le_div_iff_mul_le sps_pos]
        exact hle
      obtain ⟨fm', hloop, hrel'⟩ := ih (addr + n * sps) (size - n * sps) hrel.inv
        (hrel.lplock.trans hlp) (by rw [Nat.add_mul_mod_self_right]; exact ha)
        (Nat.mod_eq_zero_of_dvd ((Nat.dvd_sub (Nat.dvd_of_mod_eq_zero hs) (Dvd.intro_left n rfl))))
        (by rw [hrest]; omega) (by rw [hrel.bitcount]; omega) (fun f h1 h2 => by
          rw [haddr] at h1 h2
          rw [hrest] at h2
          rw [hrel.free, not_or]
          exact ⟨hout f (by omega) (by omega), by omega⟩)
      refine ⟨fm', ?_, hrel'.inv, hrel'.lplock.trans hrel.lplock,
        hrel'.bitcount.trans hrel.bitcount, fun f => ?_⟩
      · rw [regionLoop, if_neg h0, hstep]
        exact hloop
      · rw [hrel'.free, hrel.free, haddr, hrest, or_assoc]
        refine or_congr_right ?_
        omega

/-- **`releaseRegion` terminates and frees exactly the frames of its region**, whatever the
alignment of the region to blocks. -/
theorem releaseRegion_spec (hinv : Inv fm) (hlp : fm.lplock = false) (ha : addr % sps = 0)
    (hs : size % sps = 0) (hin : addr + size ≤ fm.bitcount * dps)
    (hout : ∀ f, addr / sps ≤ f → f < addr / sps + size / sps → ¬ fm.free f) :
    ∃ fm', fm.releaseRegion addr size = .ok fm' ∧ Released fm fm' fun f => addr / sps ≤ f ∧
      f < addr / sps + size / sps := by
  rw [releaseRegion, aligned_sps.mpr ha, aligned_sps.mpr hs]
  exact regionLoop_spec _ addr size hinv hlp ha hs le_rfl hin hout

/-! ## `init` -/

theorem lfLevels_sub_one : lfLevels - 1 = 3 := by decide

theorem dps_eq : dps = 2 ^ 21 := rfl

theorem divup_lt (top : ℕ) : divup top dps < wordSize := by
  have h := wsub_lt top 1
  rw [divup, dps_eq]
  unfold wordSize at *
  omega

variable {top : ℕ}

/-- The bound on the number of blocks, in bytes; `divup(0,dps)` wraps. -/
theorem divup_le_width_iff (hlt : top < wordSize) : divup top dps ≤ width 8 ^ 3 ↔
      0 < top ∧ top ≤ 2 ^ 48 := by
  rw [divup, dps_eq, width, wsub]
  unfold wordSize at *
  omega

/-- **`init` returns exactly for a memory of at most 256 TB**: of the four `bitmaps` entries, three
are levels that can hold bits. -/
theorem init_returns_iff (hlt : top < wordSize) : (∃ fm, init top = .ok fm) ↔
      0 < top ∧ top ≤ 2 ^ 48 := by
  have hsome : (HierarchicalBitmap.init 8 lfLevels (divup top dps)).isSome = true ↔
      0 < top ∧ top ≤ 2 ^ 48 := by
    rw [HierarchicalBitmap.init, Option.isSome_map, lfLevels_sub_one,
      initLoop_isSome (by decide) _ _ _ (divup_pos _ _) (divup_lt top), divup_le_width_iff hlt]
    exact and_iff_right (by decide)
  rw [← hsome, init]
  cases HierarchicalBitmap.init 8 lfLevels (divup top dps) with
  | none => simp
  | some h => simp

/-- **`init` on such a memory**: nothing is free, and every address below `top` has a block. -/
theorem init_spec (hpos : 0 < top) (htop : top ≤ 2 ^ 48) :
    ∃ fm, init top = .ok fm ∧ Inv fm ∧ fm.lplock = false ∧ top ≤ fm.bitcount * dps ∧
      ∀ f, ¬ fm.free f := by
  have hlt : top < wordSize := by
    unfold wordSize
    omega
  have hcount : divup top dps = (top - 1) / dps + 1 := divup_of_pos hpos hlt
  have hbounded : divup top dps < limit := by
    rw [hcount, dps_eq, limit]
    unfold wordSize
    omega
  have hcovers : top ≤ divup top dps * dps := by
    rw [hcount, dps_eq]
    omega
  obtain ⟨fm, hfm⟩ := (init_returns_iff hlt).mpr ⟨hpos, htop⟩
  refine ⟨fm, hfm, ?_⟩
  unfold init at hfm
  dsimp only at hfm
  cases hlf : HierarchicalBitmap.init 8 lfLevels (divup top dps) with
  | none => rw [hlf] at hfm; cases hfm
  | some lf =>
    rw [hlf] at hfm
    cases hfm
    obtain ⟨hval, htest⟩ := init_valid (divup_pos _ _) (divup_lt top) hlf
    have hnone : ∀ i b, (FrameManager.mk false lf false ∅ (divup top dps)).small i ≠ some b :=
      fun i b => by simp [small]
    refine ⟨⟨⟨fun hb => absurd hb (hnone _ _), fun hb => absurd hb (hnone _ _),
      fun hb => absurd hb (hnone _ _)⟩, hval, hbounded, fun hb => absurd hb (hnone _ _), rfl⟩, rfl,
      hcovers, ?_⟩
    rintro f (⟨-, ht⟩ | ⟨b, hb, -⟩)
    · rw [htest] at ht
      cases ht
    · exact hnone _ _ hb

end FrameManager

end Kos
